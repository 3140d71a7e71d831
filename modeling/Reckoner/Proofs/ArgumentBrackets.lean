/-
**The brackets around arguments.**

The form of a request asks for a closing bracket at the end of a text, and does not ask whether it
closes the one in front of the arguments.  When it does not, as in `simplify(x)+(1)`, the expression
of the request is `x)+(1`, whose brackets do not match although those of the text do.  The arguments
of a limit may also be divided inside brackets, as in `limit(f(x, x -> 3))`.

What stands between the two brackets is the expression, and then a comma, a name and an arrow, which
have no brackets, and the target of a limit.  So of three things any two imply the third: that the
last character closes the bracket in front of the arguments, that the brackets of the expression
match, and that those of the target do.

Main definitions:

* `Reckoner.Request.target` — the target of a limit;
* `Reckoner.Request.between?` — what stands between the bracket in front of the arguments and the
  last character.

Main results:

* `Reckoner.Notation.enclosed?_group_iff` — a pair of brackets belongs together just when those of
  its content match;
* `Reckoner.Request.exists_between` — **the parts of a text that asks for a request**;
* `Reckoner.Request.balanced_expression_iff` — **the brackets of an expression match just when the
  last character closes the bracket in front of the arguments**, if those of the target match.
-/

import Reckoner.Proofs.Operands
import Reckoner.Proofs.RequestTexts

set_option autoImplicit false

namespace Reckoner

namespace Notation

variable {r s t : List Char}

/-! ### Matched brackets in pieces -/

theorem balanced_iff_nested : balanced t = true ↔ Nested t :=
  ⟨nested_of_balanced, Nested.balanced⟩

/-- What follows a matched text is matched when the whole is. -/
theorem Nested.append_iff_right (hs : Nested s) : Nested (s ++ t) ↔ Nested t := by
  rw [← balanced_iff_nested, ← balanced_iff_nested, Notation.balanced, hs.balancedFrom_append]
  rfl

/-- What stands in front of a matched text is matched when the whole is. -/
theorem Nested.append_iff_left (ht : Nested t) : Nested (s ++ t) ↔ Nested s := by
  have hcount (depth : ℕ) : balancedFrom depth (s ++ t) = balancedFrom depth s := by
    induction s generalizing depth with
    | nil => simpa using ht.balancedFrom_append depth []
    | cons c s ih => simp only [List.cons_append, balancedFrom, ih]
  rw [← balanced_iff_nested, ← balanced_iff_nested, Notation.balanced, hcount]
  rfl

/-- In front of the bracket that closes those that are open there are as many open as before. -/
theorem balancedFrom_of_closing? {depth : ℕ} (h : closing? (depth + 1) t = some (s, r)) :
    balancedFrom depth s = true := by
  induction t generalizing depth s with
  | nil => simp [closing?] at h
  | cons c t ih =>
      rw [closing?] at h
      split at h
      · rename_i hc
        have hdepth : depth = 0 := by omega
        obtain ⟨rfl, rfl⟩ := by simpa using h
        simp [balancedFrom, hdepth]
      · rename_i hc
        obtain ⟨p, hp, heq⟩ := Option.map_eq_some_iff.1 h
        obtain ⟨rfl, rfl⟩ := Prod.mk.inj heq
        rw [balancedFrom]
        split
        · rename_i hopen
          subst hopen
          exact ih (by simpa using hp)
        · split
          · rename_i hopen hclose
            subst hclose
            have hpos : depth ≠ 0 := by
              rintro rfl
              exact hc ⟨rfl, rfl⟩
            have hless : ((depth - 1 : ℕ) : ℤ) + 1 = depth + 1 + nesting ')' := by
              rw [nesting_close]
              omega
            rw [← hless] at hp
            simp [hpos, ih hp]
          · rename_i hopen hclose
            refine ih ?_
            rwa [nesting_eq_zero_iff.2 ⟨hopen, hclose⟩, add_zero] at hp

/-- **The bracket that closes an open one is behind a matched text.** -/
theorem closing?_one_iff : closing? 1 t = some (s, r) ↔ t = s ++ ')' :: r ∧ Nested s := by
  constructor
  · intro h
    have hbalanced : balancedFrom 0 s = true := balancedFrom_of_closing? (by simpa using h)
    exact ⟨closing?_eq h, nested_of_balanced hbalanced⟩
  · rintro ⟨rfl, hs⟩
    exact hs.closing?_close r

/-- **A pair of brackets belongs together just when those of its content match.** -/
theorem enclosed?_group_iff : enclosed? ('(' :: (t ++ [')'])) = some t ↔ Nested t := by
  constructor
  · intro h
    unfold enclosed? at h
    split at h
    · rename_i r heq
      split at h
      · rename_i hclosing
        obtain rfl := Option.some.inj h
        exact (closing?_one_iff.1 hclosing).2
      · simp at h
    · simp at h
  · exact enclosed?_group

theorem nested_trim_iff : Nested (Text.trim t) ↔ Nested t := by
  obtain ⟨u, v, hu, hv, ht⟩ := exists_trim t
  conv_rhs => rw [ht]
  rw [hv.nested.append_iff_left, hu.nested.append_iff_right]

end Notation

namespace Request

open Notation (Nested Blanks balanced enclosed?)
open Text (isBlank trim after?)

variable {k : String} {cs l r t x point : List Char} {q : Request}

/-! ### The parts of a text -/

/-- The target of a limit; other requests have none. -/
def target : Request → String
  | .limit _ _ target => target
  | _ => ""

/-- What stands between the bracket in front of the arguments and the last character, behind
differentials or a keyword. -/
def between? (cs : List Char) : Option (List Char) :=
  match differentials? cs with
  | some p => some p.2
  | none => keywords.findSome? fun k => arguments? k cs

theorem arguments?_eq (h : arguments? k t = some r) : t = call k r := by
  unfold arguments? at h
  obtain ⟨s, hs, hclosing⟩ := Option.bind_eq_some_iff.1 h
  unfold dropClosing? at hclosing
  split at hclosing
  · rename_i hlast
    obtain rfl := Option.some.inj hclosing
    have hsplit : s.dropLast ++ [')'] = s := List.dropLast_append_getLast? ')' hlast
    rw [call, hsplit]
    simpa using Text.after?_eq hs
  · simp at hclosing

theorem between?_call (hk : k ∈ keywords) (t : List Char) : between? (call k t) = some t := by
  have hnone : differentials? (call k t) = none :=
    Option.map_eq_none_iff.1 (differentialForm?_call hk t)
  have hother : ∀ k' ∈ keywords, k' ≠ k → arguments? k' (call k t) = none :=
    fun k' hk' hne => arguments?_call_of_ne hk hk' hne t
  rw [between?, hnone]
  dsimp only
  obtain ⟨k', hk', r, hr⟩ : ∃ k' ∈ keywords, ∃ r, arguments? k' (call k t) = some r :=
    ⟨k, hk, t, arguments?_call k t⟩
  cases hfound : keywords.findSome? fun k' => arguments? k' (call k t) with
  | none =>
      rw [List.findSome?_eq_none_iff.1 hfound k' hk'] at hr
      simp at hr
  | some s =>
      obtain ⟨k', hk', hs⟩ := List.exists_of_findSome?_eq_some hfound
      have heq : k' = k := by
        by_contra hne
        rw [hother k' hk' hne] at hs
        simp at hs
      rw [heq, arguments?_call] at hs
      exact hs.symm

/-- Blanks and names have no brackets. -/
theorem nested_variable (hx : isVariable x = true) : Nested x := by
  refine Notation.nested_of_forall fun c hc => Notation.nesting_eq_zero_iff.2 ⟨?_, ?_⟩ <;>
  · rintro rfl
    exact absurd (le_of_mem_variable hx _ hc) (by decide)

/-- Behind a line and a comma there is a name that is no bracket. -/
theorem nested_of_variableAfter? (h : variableAfter? t = some (l, x)) :
    ∃ r, t = l ++ r ∧ Nested r := by
  obtain ⟨w, rfl, hw, hx⟩ := endsInVariable_of_variableAfter? h
  exact ⟨_, rfl, .char rfl (hw.nested.append (nested_variable hx))⟩

/-- The target is the end of a text, apart from blanks. -/
theorem exists_of_target? (h : target? t = some point) : ∃ w, Blanks w ∧ t = w ++ point := by
  refine ⟨t.takeWhile isBlank, fun c hc => List.mem_takeWhile_imp hc, ?_⟩
  have hsplit := List.takeWhile_append_dropWhile (p := isBlank) (l := t)
  unfold target? at h
  split at h
  · rename_i hdrop
    split at h
    · obtain rfl := Option.some.inj h
      rw [← hdrop, hsplit]
    · simp at h
  · split at h
    · simp at h
    · obtain rfl := Option.some.inj h
      exact hsplit.symm

/-- Between the comma and the target of a limit there are no brackets. -/
theorem exists_of_approach? (h : approach? t = some (x, point)) :
    ∃ p, Nested p ∧ t = p ++ point := by
  unfold approach? at h
  obtain ⟨⟨y, r⟩, hname, h⟩ := Option.bind_eq_some_iff.1 h
  obtain ⟨s, harrow, h⟩ := Option.bind_eq_some_iff.1 h
  obtain ⟨u, htarget, h⟩ := Option.bind_eq_some_iff.1 h
  obtain ⟨rfl, rfl⟩ := Prod.mk.inj (Option.some.inj h)
  obtain ⟨w, hw, hx, rfl⟩ := nameAfterBlanks?_eq hname
  obtain ⟨v, hv, rfl⟩ := exists_of_target? htarget
  have hblanks : Blanks (r.takeWhile isBlank) := fun c hc => List.mem_takeWhile_imp hc
  have hr : r = r.takeWhile isBlank ++ ("->".toList ++ (v ++ u)) := by
    rw [← Text.after?_eq harrow, List.takeWhile_append_dropWhile]
  refine ⟨w ++ (y ++ (r.takeWhile isBlank ++ ("->".toList ++ v))), ?_, ?_⟩
  · have harrow : Nested "->".toList := .char rfl (.char rfl .nil)
    exact hw.nested.append
      ((nested_variable hx).append (hblanks.nested.append (harrow.append hv.nested)))
  · conv_lhs => rw [hr]
    simp

theorem exists_of_approachAfter? (h : approachAfter? t = some (l, x, point)) :
    ∃ p, Nested p ∧ t = l ++ (p ++ point) := by
  induction t generalizing l with
  | nil => simp [approachAfter?] at h
  | cons c t ih =>
      rw [approachAfter?] at h
      split at h
      · simp at h
      · split at h
        · rename_i hrest
          obtain ⟨rfl, rfl, rfl⟩ := by simpa using h
          obtain ⟨p, hp, rfl⟩ := ih hrest
          exact ⟨p, hp, rfl⟩
        · split at h
          · rename_i hc
            obtain ⟨⟨y, u⟩, hy, heq⟩ := Option.map_eq_some_iff.1 h
            obtain ⟨rfl, rfl, rfl⟩ := by simpa using heq
            obtain ⟨p, hp, rfl⟩ := exists_of_approach? hy
            exact ⟨',' :: p, .char rfl hp, by rw [hc]; rfl⟩
          · simp at h

theorem exists_of_limitArguments? (h : limitArguments? t = some (l, x, point)) :
    ∃ p, Nested p ∧ t = l ++ (p ++ point) := by
  cases t with
  | nil => simp [limitArguments?] at h
  | cons c t =>
      rw [limitArguments?] at h
      split at h
      · simp at h
      · obtain ⟨⟨l', y, u⟩, hy, heq⟩ := Option.map_eq_some_iff.1 h
        obtain ⟨rfl, rfl, rfl⟩ := by simpa using heq
        obtain ⟨p, hp, rfl⟩ := exists_of_approachAfter? hy
        exact ⟨p, hp, rfl⟩

/-! ### The brackets of an expression -/

/-- Between the brackets stands the expression, then something without brackets, and then the
target. -/
def Divides (q : Request) (content : List Char) : Prop :=
  ∃ e p point, content = e ++ (p ++ point) ∧ Nested p ∧
    q.expression = argument e ∧ q.target = argument point

theorem divides_whole (hq : q.expression = argument t) (hnone : q.target = "") : q.Divides t :=
  ⟨t, [], [], by simp, .nil, hq, by rw [hnone]; rfl⟩

theorem divides_variable (h : variableAfter? t = some (l, x)) (hq : q.expression = argument l)
    (hnone : q.target = "") : q.Divides t := by
  obtain ⟨r, rfl, hr⟩ := nested_of_variableAfter? h
  exact ⟨l, r, [], by simp, hr, hq, by rw [hnone]; rfl⟩

theorem divides_limit (h : limitArguments? t = some (l, x, point)) :
    (Request.limit (argument l) (String.ofList x) (argument point)).Divides t := by
  obtain ⟨p, hp, rfl⟩ := exists_of_limitArguments? h
  exact ⟨l, p, point, rfl, hp, rfl, rfl⟩

/-- A text that is taken apart for a request. -/
def TakenApart (cs : List Char) (q : Request) : Prop :=
  ∃ content, between? cs = some content ∧ q.Divides content

theorem takenApart_of_arguments? (hk : k ∈ keywords) (ht : arguments? k cs = some t)
    (hq : q.Divides t) : TakenApart cs q := by
  obtain rfl := arguments?_eq ht
  exact ⟨t, between?_call hk t, hq⟩

theorem takenApart_of_differentialForm? (h : differentialForm? cs = some q) : TakenApart cs q := by
  obtain ⟨p, hp, rfl⟩ := Option.map_eq_some_iff.1 h
  exact ⟨p.2, by rw [between?, hp], divides_whole rfl rfl⟩

theorem takenApart_of_derivativeForm? {default : String}
    (h : derivativeForm? default cs = some q) : TakenApart cs q := by
  obtain ⟨t, ht, h⟩ := Option.bind_eq_some_iff.1 h
  have hk : "derivative" ∈ keywords := by simp [keywords]
  split at h
  · rename_i hvariable
    obtain rfl := Option.some.inj h
    exact takenApart_of_arguments? hk ht (divides_variable hvariable rfl rfl)
  · split at h
    · obtain rfl := Option.some.inj h
      exact takenApart_of_arguments? hk ht (divides_whole rfl rfl)
    · simp at h

theorem takenApart_of_simpleForm? {request : String → Request} (hk : k ∈ keywords)
    (hrequest : ∀ e, (request e).expression = e ∧ (request e).target = "")
    (h : simpleForm? k request cs = some q) : TakenApart cs q := by
  obtain ⟨t, ht, h⟩ := Option.bind_eq_some_iff.1 h
  split at h
  · obtain rfl := Option.some.inj h
    exact takenApart_of_arguments? hk ht (divides_whole (hrequest _).1 (hrequest _).2)
  · simp at h

theorem takenApart_of_solveForm? (h : solveForm? cs = some q) : TakenApart cs q := by
  obtain ⟨t, ht, h⟩ := Option.bind_eq_some_iff.1 h
  obtain ⟨p, hp, h⟩ := Option.bind_eq_some_iff.1 h
  obtain rfl := Option.some.inj h
  exact takenApart_of_arguments? (by simp [keywords]) ht (divides_variable hp rfl rfl)

theorem takenApart_of_limitForm? (h : limitForm? cs = some q) : TakenApart cs q := by
  obtain ⟨t, ht, h⟩ := Option.bind_eq_some_iff.1 h
  obtain ⟨p, hp, h⟩ := Option.bind_eq_some_iff.1 h
  obtain rfl := Option.some.inj h
  exact takenApart_of_arguments? (by simp [keywords]) ht (divides_limit hp)

/-- **A text asks for its value or is taken apart.** -/
theorem evaluate_or_takenApart (default : String) (cs : List Char) :
    classifyChars default cs = .evaluate (String.ofList cs) ∨
      TakenApart cs (classifyChars default cs) := by
  rw [classifyChars]
  generalize hforms : (differentialForm? cs <|> _) = forms
  cases forms with
  | none => exact .inl rfl
  | some q =>
      right
      simp only [Option.orElse_eq_orElse, Option.orElse_eq_or, Option.or_eq_some_iff] at hforms
      rcases hforms with h | ⟨-, h | ⟨-, h | ⟨-, h | ⟨-, h | ⟨-, h | ⟨-, h⟩⟩⟩⟩⟩⟩
      · exact takenApart_of_differentialForm? h
      · exact takenApart_of_derivativeForm? h
      · exact takenApart_of_simpleForm? (by simp [keywords]) (fun e => ⟨rfl, rfl⟩) h
      · exact takenApart_of_simpleForm? (by simp [keywords]) (fun e => ⟨rfl, rfl⟩) h
      · exact takenApart_of_simpleForm? (by simp [keywords]) (fun e => ⟨rfl, rfl⟩) h
      · exact takenApart_of_solveForm? h
      · exact takenApart_of_limitForm? h

theorem balanced_argument_iff : balanced (argument t).toList = true ↔ Nested t := by
  rw [argument, String.toList_ofList, Notation.balanced_iff_nested, Notation.nested_trim_iff]

/-- Of the brackets around the content, those of the expression and those of the target, two match
only if the third do. -/
theorem Divides.nested_iff (h : q.Divides t) :
    (Nested t ∧ balanced q.target.toList = true ↔
      balanced q.expression.toList = true ∧ balanced q.target.toList = true) ∧
    (Nested t ∧ balanced q.expression.toList = true ↔
      balanced q.expression.toList = true ∧ balanced q.target.toList = true) := by
  obtain ⟨e, p, point, rfl, hp, hexpression, htarget⟩ := h
  rw [hexpression, htarget, balanced_argument_iff, balanced_argument_iff]
  constructor
  · refine and_congr_left fun hpoint => ?_
    exact (hp.append hpoint).append_iff_left
  · rw [and_comm]
    refine and_congr_right fun he => ?_
    rw [he.append_iff_right, hp.append_iff_right]

/-- **The brackets of an expression match just when the last character closes the bracket in front
of the arguments**, if those of the target match, for every text whose own brackets match.  Of these
three things two never hold without the third. -/
theorem balanced_expression_iff (default : String) {text : String}
    (ht : balanced text.toList = true) :
    (∃ e, classify default text = .evaluate e ∧ balanced e.toList = true) ∨
      ∃ content, between? (trim text.toList) = some content ∧
        let q := classify default text
        (enclosed? ('(' :: (content ++ [')'])) = some content ∧ balanced q.target.toList = true ↔
          balanced q.expression.toList = true ∧ balanced q.target.toList = true) ∧
        (enclosed? ('(' :: (content ++ [')'])) = some content ∧
            balanced q.expression.toList = true ↔
          balanced q.expression.toList = true ∧ balanced q.target.toList = true) := by
  rcases evaluate_or_takenApart default (trim text.toList) with h | ⟨content, hcontent, hdivides⟩
  · refine .inl ⟨_, h, ?_⟩
    rw [String.toList_ofList, Notation.balanced_iff_nested, Notation.nested_trim_iff]
    exact Notation.nested_of_balanced ht
  · refine .inr ⟨content, hcontent, ?_⟩
    rw [Notation.enclosed?_group_iff]
    exact hdivides.nested_iff

/-- In a limit whose last character closes its first bracket, with brackets around the target. -/
theorem balanced_expression_limitOfSum :
    let text := "limit(f(x)+(1), x -> (2))"
    let content := "f(x)+(1), x -> (2)".toList
    classify "x" text = .limit "f(x)+(1)" "x" "(2)" ∧ balanced text.toList = true ∧
      enclosed? ('(' :: (content ++ [')'])) = some content ∧ balanced "(2)".toList = true ∧
      balanced "f(x)+(1)".toList = true := by
  intro text content
  have hclassify : classify "x" text = .limit "f(x)+(1)" "x" "(2)" := by decide +kernel
  have ht : balanced text.toList = true := by decide
  have hclosed : enclosed? ('(' :: (content ++ [')'])) = some content := by decide
  have htarget : balanced "(2)".toList = true := by decide
  refine ⟨hclassify, ht, hclosed, htarget, ?_⟩
  have hcut : between? (trim text.toList) = some content := by decide
  rcases balanced_expression_iff "x" ht with ⟨e, he, -⟩ | ⟨content', hcut', hiff⟩
  · rw [hclassify] at he
    simp at he
  · obtain rfl : content = content' := Option.some.inj (hcut.symm.trans hcut')
    rw [hclassify] at hiff
    exact (hiff.1.1 ⟨hclosed, htarget⟩).1

/-- The bracket behind a keyword or behind differentials is closed early, or the arguments of a
limit are divided inside brackets. -/
theorem not_balanced_expression_closedEarly :
    let early := "simplify(x)+(1)"
    let differentials := "d/dx(x)+d/dx(y)"
    let inside := "limit(f(x, x -> 3))"
    (balanced early.toList = true ∧ classify "x" early = .simplify "x)+(1" ∧
        balanced "x)+(1".toList = false) ∧
      (balanced differentials.toList = true ∧
        classify "x" differentials = .derivative "x)+d/dx(y" "x" ∧
        balanced "x)+d/dx(y".toList = false) ∧
      (balanced inside.toList = true ∧ classify "x" inside = .limit "f(x" "x" "3)" ∧
        balanced "f(x".toList = false) := by
  decide +kernel

end Request

end Reckoner
