/-
**The sign of a product may be written.**

Two operands that follow each other are divided at the seam between them, and operands with a sign
of multiplication between them are divided at the sign.  When a sign is written at a seam, the text
is divided at the same place as before: of signs and seams the last one counts, and a sign hides the
seam it stands at and makes no new one, since an operand begins anew behind it.  So signs may be
written at any of the seams of a text, outside brackets and inside of them, and the same expression
is read.

Signs of multiplication and seams are looked for by two scanners, and the later of the two places is
taken.  Here both are looked for at once, in one pass, which finds the signs of sums as well.

Main definitions:

* `Reckoner.Notation.Signed` — a text, and the same text with signs at some of its seams;
* `Reckoner.Notation.lastPlace?` — the last place where a text is divided, an operator or a seam;
* `Reckoner.Notation.Shape.Alike` — shapes whose parts differ in such signs only.

Main results:

* `Reckoner.Notation.factorShape?_eq` — products and quotients are divided at that place;
* `Reckoner.Notation.Signed.lastPlace?`, `Reckoner.Notation.Signed.firstOutside?_caret` —
  **signs at seams do not move the place of a division**;
* `Reckoner.Notation.Signed.shape` — the shapes of two such texts are alike;
* `Reckoner.Notation.Signed.parse_toOption` — **with signs at its seams a text is read as without
  them**.
-/

import Reckoner.Proofs.Operands

set_option autoImplicit false

namespace Reckoner

namespace Text

theorem trimRight_cons {c : Char} (hc : isBlank c = false) (t : List Char) :
    trimRight (c :: t) = c :: trimRight t :=
  trimRight_append_cons hc [] t

/-- A blank in front of what is blank is trimmed off with it. -/
theorem trimRight_cons_of_blank {c : Char} (hc : isBlank c = true) (t : List Char) :
    trimRight (c :: t) = if trimRight t = [] then [] else c :: trimRight t := by
  simp only [trimRight, List.reverse_cons, List.dropWhile_append]
  by_cases h : t.reverse.dropWhile isBlank = []
  · simp [h, hc]
  · simp [h]

end Text

namespace Notation

open Text (isBlank isLetter trim trimLeft trimRight cut?)

variable {x : Seam} {s s' t u l l' r r' : List Char} {c : Char} {before : Option Char}

/-! ### Two searches that agree -/

section Searches

variable {α β : Type} {R : α → β → Prop} {a : Option α} {b : Option β}

/-- What one search finds, the other finds as well. -/
theorem exists_of_rel (h : Option.Rel R a b) {p : α} (ha : a = some p) :
    ∃ q, b = some q ∧ R p q := by
  subst ha
  cases h with
  | @some _ q hpq => exact ⟨q, rfl, hpq⟩

/-- What one search does not find, the other does not find either. -/
theorem eq_none_of_rel (h : Option.Rel R a b) (ha : a = none) : b = none := by
  subst ha
  cases h
  rfl

end Searches

/-! ### Signs at seams -/

/-- The second text is the first with signs of multiplication at some of its seams, outside
brackets and inside of them.  `x` is what has been read in front of both. -/
inductive Signed : Seam → List Char → List Char → Prop
  | nil {x : Seam} : Signed x [] []
  | char {x : Seam} {c : Char} {t u : List Char} : nesting c = 0 → Signed (x.next c) t u →
      Signed x (c :: t) (c :: u)
  /-- Inside brackets operands begin anew. -/
  | group {x : Seam} {s s' t u : List Char} : Signed {} s s' →
      Signed ⟨0, some .group, false⟩ t u →
        Signed x ('(' :: (s ++ ')' :: t)) ('(' :: (s' ++ ')' :: u))
  /-- Behind a sign they do as well. -/
  | sign {x : Seam} {c : Char} {t u : List Char} : x.splitsAt c = true →
      Signed {} (c :: t) (c :: u) → Signed x (c :: t) ('*' :: c :: u)

/-! ### Characters at which an operand begins -/

theorem operandOf?_open : operandOf? '(' = some .group := rfl

theorem operandOf?_of_isOperator (ho : isOperator c = true) : operandOf? c = none := by
  rcases mem_operators ho with rfl | rfl | rfl | rfl | rfl <;> decide +kernel

/-- Where operands meet, one begins that is not blank. -/
theorem exists_operand_of_splitsAt (h : x.splitsAt c = true) :
    x.depth = 0 ∧ isBlank c = false ∧ ∃ k, operandOf? c = some k ∧ x.continues k = false := by
  simp only [Seam.splitsAt, Bool.and_eq_true, beq_iff_eq, Bool.not_eq_true', Option.any_eq_true,
    Bool.not_eq_true'] at h
  obtain ⟨⟨hdepth, hblank⟩, k, hk, hcontinues⟩ := h
  exact ⟨hdepth, hblank, k, hk, by simpa using hcontinues⟩

theorem splitsAt_start (c : Char) : Seam.splitsAt {} c = false := by
  cases h : Seam.splitsAt {} c with
  | false => rfl
  | true =>
      obtain ⟨-, -, k, -, hk⟩ := exists_operand_of_splitsAt h
      simp [Seam.continues] at hk

theorem before_isSome_of_splitsAt (h : x.splitsAt c = true) : x.before.isSome = true := by
  obtain ⟨-, -, k, -, hk⟩ := exists_operand_of_splitsAt h
  cases hb : x.before with
  | none => simp [Seam.continues, hb] at hk
  | some _ => rfl

/-- An operator is no place where operands meet. -/
theorem splitsAt_of_isOperator (ho : isOperator c = true) : x.splitsAt c = false := by
  rw [Seam.splitsAt, operandOf?_of_isOperator ho]
  simp

theorem not_isOperator_of_splitsAt (h : x.splitsAt c = true) : isOperator c = false := by
  rw [Bool.eq_false_iff]
  intro ho
  rw [splitsAt_of_isOperator ho] at h
  simp at h

/-- **What has been read behind a seam does not depend on what stands in front of it.** -/
theorem next_of_splitsAt (h : x.splitsAt c = true) : x.next c = Seam.next {} c := by
  obtain ⟨hdepth, hblank, k, hk, hcontinues⟩ := exists_operand_of_splitsAt h
  simp [Seam.next, hdepth, hblank, hk, hcontinues]

/-- Behind an operator operands begin anew. -/
theorem next_of_isOperator (hx : x.depth = 0) (ho : isOperator c = true) : x.next c = {} := by
  simp [Seam.next, hx, isBlank_of_isOperator ho, operandOf?_of_isOperator ho]

/-- A character that is no bracket leaves the number of open brackets as it was. -/
theorem depth_next (hx : x.depth = 0) (hc : nesting c = 0) : (x.next c).depth = 0 := by
  obtain ⟨hopen, -⟩ := nesting_eq_zero_iff.1 hc
  cases hblank : isBlank c with
  | true => simp [Seam.next, hx, hblank]
  | false => cases hk : operandOf? c <;> simp [Seam.next, hx, hblank, hk, hopen]

theorem next_close (hx : x.depth = 1) : x.next ')' = ⟨0, some .group, false⟩ := by
  rw [Seam.next, if_pos (by omega), if_neg (by decide), if_pos rfl, if_pos hx]

/-- Behind an operand a plus or minus is an operator, and so is a sign of multiplication. -/
def Follows (x : Seam) (before : Option Char) : Prop :=
  x.before.isSome = true → isSignAfter before = false

theorem follows_start (before : Option Char) : Follows {} before := by
  intro h
  simp at h

theorem follows_group : Follows ⟨0, some .group, false⟩ (some ')') := fun _ => by decide

theorem isOperator_of_isSignAfter (h : isSignAfter (some c) = true) :
    isOperator c = true ∨ c = '(' ∨ c = ',' := by
  simp only [isSignAfter, List.contains_eq_mem, List.mem_cons, List.not_mem_nil, or_false,
    decide_eq_true_eq] at h
  rcases h with rfl | rfl | rfl | rfl | rfl | rfl | rfl <;> decide

theorem isSignAfter_of_operandOf? {k : Operand} (hk : operandOf? c = some k) (hc : nesting c = 0) :
    isSignAfter (some c) = false := by
  have hcomma : operandOf? ',' = none := by decide +kernel
  rw [Bool.eq_false_iff]
  intro hs
  rcases isOperator_of_isSignAfter hs with ho | rfl | rfl
  · simp [operandOf?_of_isOperator ho] at hk
  · simp at hc
  · simp [hcomma] at hk

theorem Follows.next (h : Follows x before) (hx : x.depth = 0) (hc : nesting c = 0) :
    Follows (x.next c) (if isBlank c then before else some c) := by
  intro hsome
  cases hblank : isBlank c with
  | true =>
      have hnext : x.next c = { x with gap := x.before.isSome } := by simp [Seam.next, hx, hblank]
      rw [hnext] at hsome
      exact h hsome
  | false =>
      cases hk : operandOf? c with
      | none => simp [Seam.next, hx, hblank, hk] at hsome
      | some k => exact isSignAfter_of_operandOf? hk hc

/-! ### The last place -/

section LastPlace

variable {ops : Char → Bool}

/-- Whether a character is one of the operators `ops` outside brackets, behind an operand. -/
def Seam.operatesAt (x : Seam) (ops : Char → Bool) (before : Option Char) (c : Char) : Bool :=
  x.depth = 0 && ops c && !isSignAfter before

/-- The last place outside brackets where a text is divided: at one of the operators `ops`, which
is given with the two sides, or at a seam, if signs of multiplication are among them. -/
def lastPlace? (ops : Char → Bool) :
    Seam → Option Char → List Char → Option (List Char × Option Char × List Char)
  | _, _, [] => none
  | x, before, c :: cs =>
      match lastPlace? ops (x.next c) (if isBlank c then before else some c) cs with
      | some (l, o, r) => some (c :: l, o, r)
      | none =>
          if x.operatesAt ops before c then some ([], some c, cs)
          else if ops '*' && x.splitsAt c then some ([], none, c :: cs)
          else none

/-- The shape of a product or a quotient that is divided at such a place. -/
def factorOf : List Char × Option Char × List Char → Shape
  | (l, some o, r) => if o = '*' then .product l r else .quotient l r
  | (l, none, r) => .product l r

theorem parts_factorOf (l : List Char) (o : Option Char) (r : List Char) :
    (factorOf (l, o, r)).parts = [l, r] := by
  cases o with
  | none => rfl
  | some o =>
      simp only [factorOf]
      split <;> rfl

/-- Of the last operator and the last seam the later one. -/
def later? : Option (List Char × Char × List Char) → Option (List Char × List Char) →
    Option (List Char × Option Char × List Char)
  | some (l, o, r), some (l', r') =>
      if l'.length < l.length then some (l, some o, r) else some (l', none, r')
  | some (l, o, r), none => some (l, some o, r)
  | none, some (l, r) => some (l, none, r)
  | none, none => none

theorem factorShape?_eq_later? (t : List Char) : factorShape? t =
    (later? (lastOperator? (fun c => c == '*' || c == '/') 0 none t) (lastSeam? {} t)).map
      factorOf := by
  rw [factorShape?]
  cases lastOperator? (fun c => c == '*' || c == '/') 0 none t with
  | none => cases lastSeam? {} t <;> rfl
  | some p =>
      cases lastSeam? {} t with
      | none => rfl
      | some q =>
          simp only [later?]
          split <;> rfl

/-- The scanners agree on the number of open brackets. -/
theorem depth_next_of_balancedFrom (h : balancedFrom x.depth (c :: t) = true) :
    ((x.next c).depth : ℤ) = x.depth + nesting c ∧ balancedFrom (x.next c).depth t = true := by
  rw [balancedFrom] at h
  by_cases hopen : c = '('
  · subst hopen
    rw [if_pos rfl] at h
    have hblank : isBlank '(' = false := by decide
    have hdepth : (x.next '(').depth = x.depth + 1 := by
      by_cases hx : x.depth = 0 <;> simp [Seam.next, hx, hblank, operandOf?_open]
    rw [hdepth]
    exact ⟨by simp, h⟩
  · by_cases hclose : c = ')'
    · subst hclose
      rw [if_neg hopen, if_pos rfl, Bool.and_eq_true] at h
      have hx : x.depth ≠ 0 := by simpa using h.1
      have hdepth : (x.next ')').depth = x.depth - 1 := by
        by_cases hone : x.depth = 1 <;> simp [Seam.next, hx, hone]
      rw [hdepth, nesting_close]
      exact ⟨by omega, h.2⟩
    · rw [if_neg hopen, if_neg hclose] at h
      have hc := nesting_eq_zero_iff.2 ⟨hopen, hclose⟩
      have hdepth : (x.next c).depth = x.depth := by
        by_cases hx : x.depth = 0
        · rw [depth_next hx hc, hx]
        · simp [Seam.next, hx, hopen, hclose]
      rw [hdepth, hc, add_zero]
      exact ⟨rfl, h⟩

theorem operatesAt_eq (hops : ops c = true → isOperator c = true) (x : Seam)
    (before : Option Char) :
    (nesting c = 0 && (x.depth : ℤ) = 0 && ops c && !isSignAfter before) =
      x.operatesAt ops before c := by
  cases ho : ops c with
  | true => simp [Seam.operatesAt, ho, nesting_of_isOperator (hops ho)]
  | false => simp [Seam.operatesAt, ho]

theorem ops_of_operatesAt (h : x.operatesAt ops before c = true) : ops c = true := by
  simp only [Seam.operatesAt, Bool.and_eq_true] at h
  exact h.1.2

/-- Without signs of multiplication only operators are looked for. -/
theorem lastPlace?_eq_lastOperator? (hops : ∀ c, ops c = true → isOperator c = true)
    (htimes : ops '*' = false) (h : balancedFrom x.depth t = true) (before : Option Char) :
    lastPlace? ops x before t =
      (lastOperator? ops x.depth before t).map fun p => (p.1, some p.2.1, p.2.2) := by
  induction t generalizing x before with
  | nil => rfl
  | cons c t ih =>
      obtain ⟨hdepth, ht⟩ := depth_next_of_balancedFrom h
      rw [lastPlace?, lastOperator?, ih ht, hdepth, operatesAt_eq (hops c), htimes]
      cases lastOperator? ops (x.depth + nesting c) (if isBlank c then before else some c) t with
      | some p => rfl
      | none => cases x.operatesAt ops before c <;> rfl

/-- With them it is the later of the two places. -/
theorem lastPlace?_eq_later? (hops : ∀ c, ops c = true → isOperator c = true)
    (htimes : ops '*' = true) (h : balancedFrom x.depth t = true) (before : Option Char) :
    lastPlace? ops x before t = later? (lastOperator? ops x.depth before t) (lastSeam? x t) := by
  induction t generalizing x before with
  | nil => rfl
  | cons c t ih =>
      obtain ⟨hdepth, ht⟩ := depth_next_of_balancedFrom h
      rw [lastPlace?, lastOperator?, lastSeam?, ih ht, hdepth, operatesAt_eq (hops c), htimes]
      cases lastOperator? ops (x.depth + nesting c) (if isBlank c then before else some c) t with
      | some p =>
          obtain ⟨l, o, r⟩ := p
          cases lastSeam? (x.next c) t with
          | some q =>
              obtain ⟨l', r'⟩ := q
              by_cases hl : l'.length < l.length <;> simp [later?, hl]
          | none => cases x.splitsAt c <;> simp [later?]
      | none =>
          cases lastSeam? (x.next c) t with
          | some q => cases x.operatesAt ops before c <;> simp [later?]
          | none =>
              cases hop : x.operatesAt ops before c with
              | true => simp [later?, splitsAt_of_isOperator (hops c (ops_of_operatesAt hop))]
              | false => cases x.splitsAt c <;> simp [later?]

/-- Sums and differences are divided at the last place. -/
theorem lastPlace?_additive (h : Nested t) : lastPlace? (fun c => c == '+' || c == '-') {} none t =
    (lastOperator? (fun c => c == '+' || c == '-') 0 none t).map
      fun p => (p.1, some p.2.1, p.2.2) :=
  lastPlace?_eq_lastOperator? (x := {}) (fun _ => isOperator_of_additive) rfl h.balanced none

/-- **Products are divided at the last place.** -/
theorem factorShape?_eq (h : Nested t) : factorShape? t =
    (lastPlace? (fun c => c == '*' || c == '/') {} none t).map factorOf := by
  rw [factorShape?_eq_later?,
    lastPlace?_eq_later? (x := {}) (fun _ => isOperator_of_multiplicative) rfl h.balanced]
  rfl

theorem lastPlace?_cons_of_none (x : Seam) (before : Option Char)
    (h : lastPlace? ops (x.next c) (if isBlank c then before else some c) t = none) :
    lastPlace? ops x before (c :: t) =
      if x.operatesAt ops before c then some ([], some c, t)
      else if ops '*' && x.splitsAt c then some ([], none, c :: t)
      else none := by
  rw [lastPlace?, h]

theorem lastPlace?_cons_of_some (x : Seam) (before : Option Char)
    {p : List Char × Option Char × List Char}
    (h : lastPlace? ops (x.next c) (if isBlank c then before else some c) t = some p) :
    lastPlace? ops x before (c :: t) = some (c :: p.1, p.2) := by
  rw [lastPlace?, h]

/-- The place is at one of the operators, or at a seam. -/
theorem lastPlace?_eq_some {o : Option Char} (h : lastPlace? ops x before t = some (l, o, r)) :
    ∃ c w, t = l ++ c :: w ∧ (o = some c ∧ r = w ∧ ops c = true ∨
      o = none ∧ r = c :: w ∧ (x.run l).splitsAt c = true) := by
  induction t generalizing x before l with
  | nil => simp [lastPlace?] at h
  | cons c t ih =>
      cases ht : lastPlace? ops (x.next c) (if isBlank c then before else some c) t with
      | some p =>
          obtain ⟨l', o', r'⟩ := p
          rw [lastPlace?_cons_of_some x before ht] at h
          obtain ⟨rfl, rfl, rfl⟩ := by simpa using h
          obtain ⟨d, w, rfl, hplace⟩ := ih ht
          exact ⟨d, w, rfl, hplace⟩
      | none =>
          rw [lastPlace?_cons_of_none x before ht] at h
          split at h
          · rename_i hop
            obtain ⟨rfl, rfl, rfl⟩ := by simpa using h
            exact ⟨c, t, rfl, .inl ⟨rfl, rfl, ops_of_operatesAt hop⟩⟩
          · split at h
            · rename_i hsplits
              obtain ⟨rfl, rfl, rfl⟩ := by simpa using h
              exact ⟨c, t, rfl, .inr ⟨rfl, rfl, (Bool.and_eq_true_iff.1 hsplits).2⟩⟩
            · simp at h

/-- **The last place of a text is in the last piece that has one.** -/
theorem lastPlace?_append (x : Seam) (before : Option Char) (s t : List Char) :
    lastPlace? ops x before (s ++ t) =
      match lastPlace? ops (x.run s) (lastSeen before s) t with
      | some (l, o, r) => some (s ++ l, o, r)
      | none => (lastPlace? ops x before s).map fun p => (p.1, p.2.1, p.2.2 ++ t) := by
  induction s generalizing x before with
  | nil =>
      simp only [List.nil_append, Seam.run_nil, lastSeen, List.foldl_nil]
      cases lastPlace? ops x before t <;> rfl
  | cons c s ih =>
      rw [List.cons_append, lastPlace?, ih, Seam.run_cons, lastSeen_cons]
      cases lastPlace? ops ((x.next c).run s)
          (lastSeen (if isBlank c then before else some c) s) t with
      | some p => rfl
      | none =>
          simp only [lastPlace?]
          cases lastPlace? ops (x.next c) (if isBlank c then before else some c) s with
          | some p => rfl
          | none =>
              simp only [Option.map_none]
              split
              · rfl
              · split <;> rfl

/-- Within brackets there is no place to divide. -/
theorem Nested.lastPlace?_inside (h : Nested s) (hx : x.depth ≠ 0) (before : Option Char) :
    lastPlace? ops x before s = none := by
  have here (y : Seam) (hy : y.depth ≠ 0) (before : Option Char) (c : Char) (t : List Char)
      (ht : lastPlace? ops (y.next c) (if isBlank c then before else some c) t = none) :
      lastPlace? ops y before (c :: t) = none := by
    simp [lastPlace?_cons_of_none y before ht, Seam.operatesAt, Seam.splitsAt, hy]
  induction h generalizing x before with
  | nil => rfl
  | @char c t hc _ ih =>
      obtain ⟨hopen, hclose⟩ := nesting_eq_zero_iff.1 hc
      have hnext : x.next c = x := by rw [Seam.next, if_pos hx, if_neg hopen, if_neg hclose]
      refine here x hx before c t ?_
      rw [hnext]
      exact ih hx _
  | @group s t hs _ ihs iht =>
      have hopen : x.next '(' = { x with depth := x.depth + 1 } := by
        rw [Seam.next, if_pos hx, if_pos rfl]
      have hclose : Seam.next { x with depth := x.depth + 1 } ')' = x := by
        simp [Seam.next, hx]
      refine here x hx before '(' _ ?_
      rw [hopen, lastPlace?_append, (hs.lastSeam?_inside (by simp)).2, ihs (by simp)]
      rw [here { x with depth := x.depth + 1 } (by simp) _ ')' t]
      · rfl
      · rw [hclose]
        exact iht hx _

/-- A pair of brackets with a matched content is passed over. -/
theorem lastPlace?_group (hops : ops '(' = false) (hx : x.depth = 0) (hs : Nested s)
    (before : Option Char) (t : List Char) :
    lastPlace? ops x before ('(' :: (s ++ ')' :: t)) =
      match lastPlace? ops ⟨0, some .group, false⟩ (some ')') t with
      | some (l, o, r) => some ('(' :: (s ++ ')' :: l), o, r)
      | none =>
          if ops '*' && x.splitsAt '(' then some ([], none, '(' :: (s ++ ')' :: t)) else none := by
  have hblank : isBlank '(' = false := by decide
  have hblank' : isBlank ')' = false := by decide
  have hopen : (x.next '(').depth = 1 := by simp [Seam.next, hx, hblank, operandOf?_open]
  have hclose := next_close hopen
  have hinside : lastPlace? ops (x.next '(') (some '(') s = none :=
    hs.lastPlace?_inside (by simp [hopen]) _
  have hrun := (hs.lastSeam?_inside (x := x.next '(') (by simp [hopen])).2
  have hoperates : x.operatesAt ops before '(' = false := by simp [Seam.operatesAt, hops]
  have hoperates' (b : Option Char) : (x.next '(').operatesAt ops b ')' = false := by
    simp [Seam.operatesAt, hopen]
  have hsplits : (x.next '(').splitsAt ')' = false := by simp [Seam.splitsAt, hopen]
  -- the bracket, its content and the bracket that closes it have no place of their own
  simp only [lastPlace?, lastPlace?_append, hblank, hblank', hrun, hinside, hclose, hoperates,
    hoperates', hsplits, Bool.false_eq_true, if_false, Bool.and_false]
  cases lastPlace? ops ⟨0, some .group, false⟩ (some ')') t <;> rfl

end LastPlace

/-! ### Texts with signs at seams -/

namespace Signed

/-- The brackets of both texts match. -/
theorem nested (h : Signed x t u) : Nested t ∧ Nested u := by
  induction h with
  | nil => exact ⟨.nil, .nil⟩
  | char hc _ ih => exact ⟨.char hc ih.1, .char hc ih.2⟩
  | group _ _ ihs iht => exact ⟨.group ihs.1 iht.1, .group ihs.2 iht.2⟩
  | sign _ _ ih => exact ⟨ih.1, .char rfl ih.2⟩

theorem nil_iff (h : Signed x t u) : t = [] ↔ u = [] := by
  cases h <;> simp

/-- No sign stands at the front of a text. -/
theorem head (h : Signed {} (c :: t) u) : ∃ u', u = c :: u' := by
  cases h with
  | char => exact ⟨_, rfl⟩
  | group => exact ⟨_, rfl⟩
  | sign hc =>
      rw [splitsAt_start] at hc
      simp at hc

/-! ### Blanks at the ends -/

theorem trimLeft (h : Signed {} t u) : Signed {} (trimLeft t) (trimLeft u) := by
  induction t generalizing u with
  | nil =>
      obtain rfl := h.nil_iff.1 rfl
      exact .nil
  | cons c t ih =>
      cases hc : isBlank c with
      | false =>
          obtain ⟨u', rfl⟩ := h.head
          simpa [Text.trimLeft, hc] using h
      | true =>
          cases h with
          | char _ ht =>
              have hnext : Seam.next {} c = {} := by simp [Seam.next, hc]
              rw [hnext] at ht
              simpa [Text.trimLeft, hc] using ih ht
          | group => exact absurd hc (by decide)
          | sign hsplits => simp [splitsAt_start] at hsplits

theorem trimRight (h : Signed x t u) : Signed x (trimRight t) (trimRight u) := by
  induction h with
  | nil => exact .nil
  | @char x c t u hc _ ih =>
      cases hblank : isBlank c with
      | false =>
          rw [Text.trimRight_cons hblank, Text.trimRight_cons hblank]
          exact .char hc ih
      | true =>
          rw [Text.trimRight_cons_of_blank hblank, Text.trimRight_cons_of_blank hblank]
          by_cases ht : Text.trimRight t = []
          · rw [if_pos ht, if_pos (ih.nil_iff.1 ht)]
            exact .nil
          · rw [if_neg ht, if_neg fun hu => ht (ih.nil_iff.2 hu)]
            exact .char hc ih
  | @group x s s' t u hs _ _ iht =>
      have hclose (s t : List Char) :
          Text.trimRight ('(' :: (s ++ ')' :: t)) = '(' :: (s ++ ')' :: Text.trimRight t) :=
        Text.trimRight_append_cons (by decide) ('(' :: s) t
      rw [hclose, hclose]
      exact .group hs iht
  | @sign x c t u hc _ ih =>
      have hblank := (exists_operand_of_splitsAt hc).2.1
      have htimes : isBlank '*' = false := by decide
      rw [Text.trimRight_cons hblank, Text.trimRight_cons hblank] at ih
      rw [Text.trimRight_cons hblank, Text.trimRight_cons htimes, Text.trimRight_cons hblank]
      exact .sign hc ih

theorem trim (h : Signed {} t u) : Signed {} (trim t) (trim u) := h.trimLeft.trimRight

/-! ### Places -/

/-- Two texts are divided at the same place, where a sign may have been put in at a seam. -/
structure SamePlace (x : Seam) (p q : List Char × Option Char × List Char) : Prop where
  left : Signed x p.1 q.1
  right : Signed {} p.2.2 q.2.2
  operator : q.2.1 = p.2.1 ∨ p.2.1 = none ∧ q.2.1 = some '*'

section Places

variable {ops : Char → Bool}

/-- A sign at a seam is found in place of the seam. -/
theorem lastPlace?_sign (hops : ∀ c, ops c = true → isOperator c = true)
    (hc : x.splitsAt c = true) (hx : x.depth = 0) (hbefore : Follows x before)
    (htu : Signed {} (c :: t) (c :: u))
    (h : Option.Rel (SamePlace {}) (lastPlace? ops {} (some '*') (c :: t))
      (lastPlace? ops {} (some '*') (c :: u))) :
    Option.Rel (SamePlace x) (lastPlace? ops x before (c :: t))
      (lastPlace? ops x before ('*' :: c :: u)) := by
  obtain ⟨-, hblank, -⟩ := exists_operand_of_splitsAt hc
  have hnot (y : Seam) (b : Option Char) : y.operatesAt ops b c = false := by
    have hoperator := not_isOperator_of_splitsAt hc
    cases ho : ops c with
    | false => simp [Seam.operatesAt, ho]
    | true => simp [hops c ho] at hoperator
  have hsign : x.operatesAt ops before '*' = ops '*' := by
    simp [Seam.operatesAt, hx, hbefore (before_isSome_of_splitsAt hc)]
  have htimes : x.splitsAt '*' = false := splitsAt_of_isOperator rfl
  have hbehind : x.next '*' = {} := next_of_isOperator hx rfl
  -- what follows the seam is divided as if nothing stood in front of it
  cases hplace : lastPlace? ops (Seam.next {} c) (some c) t with
  | some p =>
      have ht (y : Seam) (hy : y.next c = Seam.next {} c) (b : Option Char) :
          lastPlace? ops y b (c :: t) = some (c :: p.1, p.2) :=
        lastPlace?_cons_of_some y b (by rw [hblank, hy]; exact hplace)
      obtain ⟨⟨l, q⟩, hu, hpq⟩ := exists_of_rel h (ht _ rfl (some '*'))
      obtain ⟨l', rfl⟩ := hpq.left.head
      rw [ht x (next_of_splitsAt hc), lastPlace?_cons_of_some x before (by rw [hbehind]; exact hu)]
      exact .some ⟨.sign hc hpq.left, hpq.right, hpq.operator⟩
  | none =>
      have ht (y : Seam) (hy : y.next c = Seam.next {} c) (b : Option Char) :
          lastPlace? ops y b (c :: t) =
            if ops '*' && y.splitsAt c then some ([], none, c :: t) else none := by
        rw [lastPlace?_cons_of_none y b (by rw [hblank, hy]; exact hplace), hnot]
        rfl
      have hu := eq_none_of_rel h (by rw [ht _ rfl, splitsAt_start]; simp)
      rw [ht x (next_of_splitsAt hc), hc,
        lastPlace?_cons_of_none x before (by rw [hbehind]; exact hu), hsign, htimes]
      cases hops' : ops '*' with
      | true => exact .some ⟨.nil, htu, .inr ⟨rfl, rfl⟩⟩
      | false => exact .none

/-- **Signs at seams do not move the place of a division.** -/
theorem lastPlace? (hops : ∀ c, ops c = true → isOperator c = true) (h : Signed x t u)
    (hx : x.depth = 0) (hbefore : Follows x before) :
    Option.Rel (SamePlace x) (lastPlace? ops x before t) (lastPlace? ops x before u) := by
  have hopen : ops '(' = false := by
    rw [Bool.eq_false_iff]
    intro ho
    exact absurd (hops _ ho) (by decide)
  induction h generalizing before with
  | nil => exact .none
  | @char x c t u hc htu ih =>
      -- a place further right counts first, and else the place at the character itself
      have ih := ih (depth_next hx hc) (hbefore.next hx hc)
      rw [Notation.lastPlace?, Notation.lastPlace?]
      generalize Notation.lastPlace? ops (x.next c) _ t = p at ih ⊢
      generalize Notation.lastPlace? ops (x.next c) _ u = q at ih ⊢
      cases ih with
      | some hpq => exact .some ⟨.char hc hpq.left, hpq.right, hpq.operator⟩
      | none =>
          cases hop : x.operatesAt ops before c with
          | true =>
              rw [next_of_isOperator hx (hops c (ops_of_operatesAt hop))] at htu
              exact .some ⟨.nil, htu, .inl rfl⟩
          | false =>
              cases hsplits : ops '*' && x.splitsAt c with
              | true =>
                  rw [next_of_splitsAt (Bool.and_eq_true_iff.1 hsplits).2] at htu
                  exact .some ⟨.nil, .char hc htu, .inl rfl⟩
              | false => exact .none
  | @group x s s' t u hs htu _ iht =>
      have iht := iht rfl follows_group
      rw [lastPlace?_group hopen hx hs.nested.1, lastPlace?_group hopen hx hs.nested.2]
      generalize Notation.lastPlace? ops _ (some ')') t = p at iht ⊢
      generalize Notation.lastPlace? ops _ (some ')') u = q at iht ⊢
      cases iht with
      | some hpq => exact .some ⟨.group hs hpq.left, hpq.right, hpq.operator⟩
      | none =>
          cases hsplits : ops '*' && x.splitsAt '(' with
          | true => exact .some ⟨.nil, .group hs htu, .inl rfl⟩
          | false => exact .none
  | sign hc htu ih => exact lastPlace?_sign hops hc hx hbefore htu (ih rfl (follows_start _))

end Places

/-- **The first `^` stays the first.** -/
theorem firstOutside?_caret (h : Signed x t u) (hx : x.depth = 0) :
    Option.Rel (fun p q => Signed x p.1 q.1 ∧ Signed {} p.2 q.2) (firstOutside? '^' 0 t)
      (firstOutside? '^' 0 u) := by
  induction h with
  | nil => exact .none
  | @char x c t u hc htu ih =>
      have ih := ih (depth_next hx hc)
      by_cases hcaret : c = '^'
      · subst hcaret
        rw [next_of_isOperator hx rfl] at htu
        exact .some ⟨.nil, htu⟩
      · simp only [firstOutside?, hcaret, hc, false_and, and_false, if_false, add_zero]
        generalize firstOutside? '^' 0 t = p at ih ⊢
        generalize firstOutside? '^' 0 u = q at ih ⊢
        cases ih with
        | none => exact .none
        | some hpq => exact .some ⟨.char hc hpq.1, hpq.2⟩
  | @group x s s' t u hs htu _ iht =>
      have iht := iht rfl
      rw [firstOutside?_group hs.nested.1, firstOutside?_group hs.nested.2]
      generalize firstOutside? '^' 0 t = p at iht ⊢
      generalize firstOutside? '^' 0 u = q at iht ⊢
      cases iht with
      | none => exact .none
      | some hpq => exact .some ⟨.group hs hpq.1, hpq.2⟩
  | @sign x c t u hc htu ih =>
      have hcaret : c ≠ '^' := by
        rintro rfl
        exact absurd (not_isOperator_of_splitsAt hc) (by decide)
      have hfront (r : List Char) : firstOutside? '^' 0 (c :: r) =
          (firstOutside? '^' (nesting c) r).map fun p => (c :: p.1, p.2) := by
        rw [firstOutside?, if_neg (by simp [hcaret]), zero_add]
      have hsign : firstOutside? '^' 0 ('*' :: c :: u) =
          (firstOutside? '^' 0 (c :: u)).map fun p => ('*' :: p.1, p.2) := by
        rw [firstOutside?, if_neg (by decide), zero_add]
        rfl
      have ih := ih rfl
      rw [hsign]
      rw [hfront t, hfront u] at ih ⊢
      cases hp : firstOutside? '^' (nesting c) t with
      | none =>
          have hq := eq_none_of_rel ih (by rw [hp]; rfl)
          rw [Option.map_eq_none_iff.1 hq]
          exact .none
      | some p =>
          obtain ⟨q', hq', hleft, hright⟩ := exists_of_rel ih (by rw [hp]; rfl)
          obtain ⟨q, hq, rfl⟩ := Option.map_eq_some_iff.1 hq'
          rw [hq]
          exact .some ⟨.sign hc hleft, hright⟩

/-- A text and the text with signs are in brackets as a whole together. -/
theorem enclosed? (h : Signed {} t u) :
    Option.Rel (Signed {}) (enclosed? t) (enclosed? u) := by
  cases h with
  | nil => exact .none
  | char hc =>
      rw [enclosed?_of_nesting hc, enclosed?_of_nesting hc]
      exact .none
  | sign hc => simp [splitsAt_start] at hc
  | group hs ht =>
      rw [Notation.enclosed?, Notation.enclosed?, hs.nested.1.closing?_close,
        hs.nested.2.closing?_close]
      cases ht with
      | nil => exact .some hs
      | char | group | sign => exact .none

end Signed

/-! ### Texts that are not divided -/

/-- Texts with the same characters in front of their first bracket, which holds the same up to signs
at seams. -/
inductive SameLeaf : List Char → List Char → Prop
  | plain {t : List Char} : '(' ∉ t → SameLeaf t t
  | bracket {l s s' r r' : List Char} : '(' ∉ l → Signed {} s s' → (r = [] ↔ r' = []) →
      SameLeaf (l ++ '(' :: (s ++ ')' :: r)) (l ++ '(' :: (s' ++ ')' :: r'))

theorem SameLeaf.cons (h : SameLeaf t u) (hc : c ≠ '(') : SameLeaf (c :: t) (c :: u) := by
  cases h with
  | plain ht => exact .plain (by simp [ht, hc.symm])
  | @bracket l s s' r r' hl hs hr =>
      exact .bracket (l := c :: l) (by simp [hl, hc.symm]) hs hr

/-- Without a place to divide there is no seam for a sign. -/
theorem Signed.sameLeaf {ops : Char → Bool} (h : Signed x t u)
    (hnone : Notation.lastPlace? ops x before t = none) (htimes : ops '*' = true) :
    SameLeaf t u := by
  induction h generalizing before with
  | nil => exact .plain (by simp)
  | @char x c t u hc _ ih =>
      cases ht : Notation.lastPlace? ops (x.next c) (if isBlank c then before else some c) t with
      | some p => simp [lastPlace?_cons_of_some x before ht] at hnone
      | none => exact (ih ht).cons (nesting_eq_zero_iff.1 hc).1
  | group hs ht => exact .bracket (l := []) (by simp) hs ht.nil_iff
  | @sign x c t u hc _ _ =>
      cases ht : Notation.lastPlace? ops (x.next c) (if isBlank c then before else some c) t with
      | some p => simp [lastPlace?_cons_of_some x before ht] at hnone
      | none =>
          rw [lastPlace?_cons_of_none x before ht, htimes, hc] at hnone
          split at hnone <;> simp at hnone

/-! ### Shapes -/

/-- Shapes of one kind, whose parts are the same up to signs at seams. -/
inductive Shape.Alike : Shape → Shape → Prop
  | enclosed {s s' : List Char} : Signed {} s s' → Alike (.enclosed s) (.enclosed s')
  | sum {l l' r r' : List Char} : Signed {} l l' → Signed {} r r' → Alike (.sum l r) (.sum l' r')
  | difference {l l' r r' : List Char} : Signed {} l l' → Signed {} r r' →
      Alike (.difference l r) (.difference l' r')
  | product {l l' r r' : List Char} : Signed {} l l' → Signed {} r r' →
      Alike (.product l r) (.product l' r')
  | quotient {l l' r r' : List Char} : Signed {} l l' → Signed {} r r' →
      Alike (.quotient l r) (.quotient l' r')
  | negative {s s' : List Char} : Signed {} s s' → Alike (.negative s) (.negative s')
  | positive {s s' : List Char} : Signed {} s s' → Alike (.positive s) (.positive s')
  | power {l l' r r' : List Char} : Signed {} l l' → Signed {} r r' →
      Alike (.power l r) (.power l' r')
  | call {name s s' : List Char} : Signed {} s s' → Alike (.call name s) (.call name s')
  | other : Alike .other .other

/-- The shape of a text without operators. -/
def leafShape (t : List Char) : Shape :=
  match callShape? t with
  | some s => s
  | none => if isNumeral t then .numeral else if isIdentifier t then .identifier else .other

theorem SameLeaf.leafShape (h : SameLeaf t u) : t = u ∨ (leafShape t).Alike (leafShape u) := by
  cases h with
  | plain => exact .inl rfl
  | @bracket l s s' r r' hl hs hr =>
      right
      have hcut (r : List Char) : cut? '(' (l ++ '(' :: r) = some (l, r) := by
        rw [cut?_append fun d hd (heq : d = '(') => hl (heq ▸ hd)]
        simp [cut?]
      have hother (r : List Char) : isNumeral (l ++ '(' :: r) = false ∧
          isIdentifier (l ++ '(' :: r) = false := by
        constructor
        · simp [isNumeral]
        · rw [Bool.eq_false_iff]
          intro hname
          have hopen := Text.isNameChar_of_mem hname '(' (by simp)
          rw [Text.not_isNameChar_of_isDelimiter (by decide)] at hopen
          simp at hopen
      rw [Notation.leafShape, Notation.leafShape, callShape?, callShape?, hcut, hcut]
      simp only [hs.nested.1.closing?_close, hs.nested.2.closing?_close, hother]
      cases r with
      | nil =>
          obtain rfl := hr.1 rfl
          cases isIdentifier (trim l) with
          | true => exact .call hs
          | false => exact .other
      | cons d r =>
          cases r' with
          | nil => simp at hr
          | cons => exact .other

namespace Signed

theorem behind (h : Signed {} (c :: t) (c :: u)) (ho : isOperator c = true) : Signed {} t u := by
  cases h with
  | char _ htu => rwa [next_of_isOperator rfl ho] at htu
  | group => exact absurd ho (by decide)
  | sign hc => simp [splitsAt_start] at hc

theorem atomShape (h : Signed {} t u) (hne : t ≠ [])
    (hnone : Notation.lastPlace? (fun c => c == '*' || c == '/') {} none t = none) :
    t = u ∨ (atomShape t).Alike (atomShape u) := by
  cases t with
  | nil => exact absurd rfl hne
  | cons c t =>
      obtain ⟨u, rfl⟩ := h.head
      by_cases hminus : c = '-'
      · subst hminus
        exact .inr (.negative (h.behind rfl))
      by_cases hplus : c = '+'
      · subst hplus
        exact .inr (.positive (h.behind rfl))
      rw [atomShape_unsigned hminus hplus, atomShape_unsigned hminus hplus]
      have hcaret := h.firstOutside?_caret rfl
      generalize firstOutside? '^' 0 (c :: t) = p at hcaret ⊢
      generalize firstOutside? '^' 0 (c :: u) = q at hcaret ⊢
      cases hcaret with
      | some hpq => exact .inr (.power hpq.1 hpq.2)
      | none => exact (h.sameLeaf hnone rfl).leafShape

/-- Products and quotients are divided alike. -/
theorem factorOf {p q : List Char × Option Char × List Char} (h : SamePlace {} p q) :
    (factorOf p).Alike (factorOf q) := by
  obtain ⟨l, o, r⟩ := p
  obtain ⟨l', o', r'⟩ := q
  obtain ⟨hleft, hright, hop⟩ := h
  rcases hop with hop | ⟨hop, hop'⟩
  · obtain rfl : o' = o := hop
    cases o' with
    | none => exact .product hleft hright
    | some o =>
        simp only [Notation.factorOf]
        split
        · exact .product hleft hright
        · exact .quotient hleft hright
  · obtain rfl : o = none := hop
    obtain rfl : o' = some '*' := hop'
    exact .product hleft hright

/-- Texts that are no sums are divided alike. -/
theorem factorShape (h : Signed {} t u) (hne : t ≠ []) :
    t = u ∨ ((factorShape? t).getD (Notation.atomShape t)).Alike
      ((factorShape? u).getD (Notation.atomShape u)) := by
  obtain ⟨ht, hu⟩ := h.nested
  have hfactor := h.lastPlace? (fun _ => isOperator_of_multiplicative) rfl (follows_start none)
  rw [factorShape?_eq ht, factorShape?_eq hu]
  cases hp : Notation.lastPlace? (fun c => c == '*' || c == '/') {} none t with
  | some p =>
      obtain ⟨q, hq, hpq⟩ := exists_of_rel hfactor hp
      rw [hq]
      exact .inr (factorOf hpq)
  | none =>
      rw [eq_none_of_rel hfactor hp]
      exact h.atomShape hne hp

/-- Sums and differences are found at the same sign. -/
theorem lastOperator?_additive (h : Signed {} t u) :
    Option.Rel (fun p q => q.2.1 = p.2.1 ∧ Signed {} p.1 q.1 ∧ Signed {} p.2.2 q.2.2)
      (lastOperator? (fun c => c == '+' || c == '-') 0 none t)
      (lastOperator? (fun c => c == '+' || c == '-') 0 none u) := by
  obtain ⟨ht, hu⟩ := h.nested
  have hplace := h.lastPlace? (fun _ => isOperator_of_additive) rfl (follows_start none)
  rw [lastPlace?_additive ht, lastPlace?_additive hu] at hplace
  cases hp : lastOperator? (fun c => c == '+' || c == '-') 0 none t with
  | none =>
      have hq := eq_none_of_rel hplace (by rw [hp]; rfl)
      rw [Option.map_eq_none_iff.1 hq]
      exact .none
  | some p =>
      obtain ⟨q', hq', hleft, hright, hop⟩ := exists_of_rel hplace (by rw [hp]; rfl)
      obtain ⟨q, hq, rfl⟩ := Option.map_eq_some_iff.1 hq'
      rw [hq]
      exact .some ⟨by simpa using hop, hleft, hright⟩

/-- **With signs at its seams a text has the shape it has without them.** -/
theorem shape (h : Signed {} t u) : t = u ∨ (shape t).Alike (shape u) := by
  by_cases hne : t = []
  · obtain rfl := hne
    exact .inl (h.nil_iff.1 rfl).symm
  have hne' : u ≠ [] := fun hu => hne (h.nil_iff.2 hu)
  obtain ⟨ht, hu⟩ := h.nested
  cases he : Notation.enclosed? t with
  | some s =>
      obtain ⟨s', he', hs⟩ := exists_of_rel h.enclosed? he
      obtain rfl := enclosed?_eq he
      obtain rfl := enclosed?_eq he'
      rw [shape_group (ht.of_enclosed? he), shape_group (hu.of_enclosed? he')]
      exact .inr (.enclosed hs)
  | none =>
      rw [shape_of_not_enclosed hne ht.balanced he,
        shape_of_not_enclosed hne' hu.balanced (eq_none_of_rel h.enclosed? he)]
      have hsum := h.lastOperator?_additive
      cases hp : lastOperator? (fun c => c == '+' || c == '-') 0 none t with
      | none =>
          rw [eq_none_of_rel hsum hp]
          exact h.factorShape hne
      | some p =>
          obtain ⟨⟨l', o', r'⟩, hq, hpq⟩ := exists_of_rel hsum hp
          obtain ⟨l, o, r⟩ := p
          obtain ⟨rfl, hleft, hright⟩ := hpq
          rw [hq]
          right
          dsimp only
          split
          · exact .sum hleft hright
          · exact .difference hleft hright

end Signed

/-! ### Reading -/

section Reading

variable {κ : Type} [Number κ]

theorem toOption_bind {α β : Type} {a a' : Except ParseError α} {f f' : α → Except ParseError β}
    (h : a'.toOption = a.toOption) (hf : ∀ e, (f' e).toOption = (f e).toOption) :
    (a' >>= f').toOption = (a >>= f).toOption := by
  cases a with
  | error r =>
      cases a' with
      | error r' => rfl
      | ok e => simp [Except.toOption] at h
  | ok e =>
      cases a' with
      | error r' => simp [Except.toOption] at h
      | ok e' =>
          obtain rfl : e' = e := Option.some.inj h
          exact hf e'

/-- Shapes of one kind are read alike, when their parts are. -/
theorem Shape.Alike.readShape {σ σ' : Shape} (h : σ.Alike σ')
    (hparts : ∀ p ∈ σ.parts, ∀ q, Signed {} p q →
      (parse q : Except ParseError (Expr κ)).toOption = (parse p).toOption) (t u : List Char) :
    (readShape u σ' : Except ParseError (Expr κ)).toOption = (readShape t σ).toOption := by
  cases h with
  | enclosed hs | positive hs => exact hparts _ (by simp [parts]) _ hs
  | negative hs => exact toOption_bind (hparts _ (by simp [parts]) _ hs) fun _ => rfl
  | call hs => exact toOption_bind (hparts _ (by simp [parts]) _ hs) fun _ => rfl
  | sum hl hr | difference hl hr | product hl hr | quotient hl hr | power hl hr =>
      exact toOption_bind (hparts _ (by simp [parts]) _ hl) fun _ =>
        toOption_bind (hparts _ (by simp [parts]) _ hr) fun _ => rfl
  | other => rfl

/-- **With signs at its seams a text is read as without them.** -/
theorem Signed.parse_toOption (h : Signed {} t u) :
    (parse u : Except ParseError (Expr κ)).toOption = (parse t).toOption := by
  induction hn : t.length using Nat.strong_induction_on generalizing t u with
  | _ n ih =>
      subst hn
      rw [parse_eq, parse_eq t]
      rcases h.trim.shape with heq | halike
      · rw [heq]
      · refine halike.readShape (fun p hp q hpq => ih p.length ?_ hpq rfl) _ _
        have := length_lt_of_mem_parts hp
        have := Text.length_trim_le t
        omega

end Reading

end Notation

end Reckoner
