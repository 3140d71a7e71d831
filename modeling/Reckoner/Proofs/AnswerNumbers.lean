/-
**The numbers of answers.**

An answer that is a decimal number, or a quotient of two, is not evaluated as a formula: it is read
at once.  The formula would have given the same.  Its tokens are the signs, the numbers and the
slash, a sign is applied before the division and after the number, and what the evaluator does not
understand, a number that begins with its point, a small `e` in front of a power of ten or a blank
of another script, it rejects.

Main definitions:

* `Reckoner.Literal.SignText` — the signs in front of a number;
* `Reckoner.Judge.Machine.rest?` — the value of the rest of a formula, from a state;
* `Reckoner.Judge.Stops` — texts that do not go on with a number;
* `Reckoner.Judge.Machine.Holding` — the states behind one more operand.

Main results:

* `Reckoner.Literal.exists_parts` — the parts of a decimal number;
* `Reckoner.Judge.token?_number` — a number is one token;
* `Reckoner.Judge.rest?_operand` — **an operand is rejected or read as the number that it denotes**;
* `Reckoner.Judge.evaluate?_plainNumber`, `Reckoner.Judge.evaluate?_quotient` — the formula of a
  number and of a quotient;
* `Reckoner.Judge.numericValue?_eq_evaluate?` — **the shortcuts agree with the evaluator**.
-/

import Reckoner.Judge.Compare
import Reckoner.Proofs.Operands

set_option autoImplicit false

namespace Reckoner

open Notation (Blanks Numeral)

/-! ### The parts of a number -/

namespace Literal

variable {b b' : Bool} {n : ℕ} {p q k : ℤ} {d : Char} {t u m e r : List Char}

/-- The signs in front of a number, with whether they negate it. -/
inductive SignText : List Char → Bool → Prop
  | none : SignText [] false
  | plus : SignText ['+'] false
  | minus : SignText ['-'] true

theorem signText_sign (t : List Char) : ∃ s, SignText s (sign t).1 ∧ t = s ++ (sign t).2 := by
  unfold sign
  split
  · exact ⟨['-'], .minus, rfl⟩
  · exact ⟨['+'], .plus, rfl⟩
  · exact ⟨[], .none, rfl⟩

theorem sign_append (h : t ≠ []) (r : List Char) :
    sign (t ++ r) = ((sign t).1, (sign t).2 ++ r) := by
  obtain ⟨c, t, rfl⟩ := List.exists_cons_of_ne_nil h
  rw [List.cons_append]
  unfold sign
  split <;> simp_all

/-- Behind the `e` and a sign there are digits. -/
theorem digits_of_power? (h : power? (d :: e) = some k) :
    (sign e).2 ≠ [] ∧ ∀ c ∈ (sign e).2, c.isDigit = true := by
  simp only [power?] at h
  split at h
  · rename_i hc
    simp only [Bool.and_eq_true, Bool.not_eq_true', List.isEmpty_eq_false_iff,
      List.all_eq_true] at hc
    exact ⟨hc.1.2, hc.2⟩
  · simp at h

/-- An unsigned number is cut into its digits and its power of ten. -/
theorem exists_parts_of_unsigned? (h : unsigned? b u = some (.decimal b' n p)) :
    b' = b ∧ ∃ m e q k, u = m ++ e ∧ Numeral m n q ∧ power? e = some k ∧ p = k + q := by
  have hu := List.takeWhile_append_dropWhile (p := Char.isDigit) (l := u)
  have hw : ∀ c ∈ u.takeWhile Char.isDigit, c.isDigit = true :=
    fun c hc => List.mem_takeWhile_imp hc
  unfold unsigned? at h
  dsimp only at h
  generalize u.takeWhile Char.isDigit = w at hu hw h
  -- with the fraction and what follows it, both ways of writing a number end alike
  have finish {f e : List Char} (h : (if (w.isEmpty && f.isEmpty) = true then none
      else (power? e).map fun power => decimal b (natural (w ++ f)) (power - f.length)) =
        some (.decimal b' n p)) :
      w ++ f ≠ [] ∧ ∃ k, power? e = some k ∧ b = b' ∧ natural (w ++ f) = n ∧ k - f.length = p := by
    split at h
    · simp at h
    · rename_i hne
      obtain ⟨k, hk, hdecimal⟩ := Option.map_eq_some_iff.1 h
      exact ⟨by simpa using hne, k, hk, by simpa using hdecimal⟩
  split at h
  · rename_i r hdrop
    obtain ⟨hne, k, hk, rfl, rfl, rfl⟩ := finish h
    have hf : ∀ c ∈ r.takeWhile Char.isDigit, c.isDigit = true :=
      fun c hc => List.mem_takeWhile_imp hc
    refine ⟨rfl, _, _, _, k, ?_, .pointed hne hw hf, hk, by ring⟩
    rw [List.append_assoc, List.cons_append, List.takeWhile_append_dropWhile, ← hdrop, hu]
  · obtain ⟨hne, k, hk, rfl, rfl, rfl⟩ := finish h
    rw [List.append_nil] at hne ⊢
    exact ⟨rfl, _, _, _, k, hu.symm, .whole hne hw, hk, by simp⟩

/-- **A decimal number is cut into its sign, its digits and its power of ten.** -/
theorem exists_parts (h : read t = some (.decimal b n p)) :
    ∃ s m e q k, t = s ++ (m ++ e) ∧ SignText s b ∧ Numeral m n q ∧ power? e = some k ∧
      p = k + q := by
  obtain ⟨s, hs, ht⟩ := signText_sign t
  simp only [read] at h
  split at h
  · simp at h
  · split at h
    · simp at h
    · obtain ⟨rfl, m, e, q, k, hu, hm, he, rfl⟩ := exists_parts_of_unsigned? h
      exact ⟨s, m, e, q, k, by rw [ht, hu], hs, hm, he, rfl⟩

theorem toLower_ne_of_isDigit {c : Char} (hd : d.isDigit = true) (hc : c.isDigit = false) :
    d.toLower ≠ c := by
  have hcode := Text.toNat_of_isDigit hd
  rw [toLower_of_lt (by omega)]
  rintro rfl
  rw [hd] at hc
  exact Bool.noConfusion hc

/-- Without a sign in front, a text that begins with a digit is read as an unsigned number. -/
theorem read_of_isDigit (hd : d.isDigit = true) (t : List Char) :
    read (d :: t) = unsigned? false (d :: t) := by
  have hsign : sign (d :: t) = (false, d :: t) := by
    unfold sign
    split
    · rename_i heq
      obtain ⟨rfl, -⟩ := List.cons.inj heq
      exact absurd hd (by decide)
    · rename_i heq
      obtain ⟨rfl, -⟩ := List.cons.inj heq
      exact absurd hd (by decide)
    · rfl
  have hword {c : Char} (hc : c.isDigit = false) (w : List Char) :
      (String.ofList ((d :: t).map Char.toLower) == String.ofList (c :: w)) = false := by
    rw [beq_eq_false_iff_ne, Ne, String.ofList_inj]
    intro h
    exact toLower_ne_of_isDigit hd hc (List.cons.inj h).1
  have hinf : (String.ofList ((d :: t).map Char.toLower) == "inf") = false :=
    hword (c := 'i') rfl ['n', 'f']
  have hinfinity : (String.ofList ((d :: t).map Char.toLower) == "infinity") = false :=
    hword (c := 'i') rfl ['n', 'f', 'i', 'n', 'i', 't', 'y']
  have hnan : (String.ofList ((d :: t).map Char.toLower) == "nan") = false :=
    hword (c := 'n') rfl ['a', 'n']
  simp only [read, hsign, hinf, hinfinity, hnan]
  rfl

end Literal

namespace Judge

open Literal (SignText power?)
open Text (isBlank)

variable {b : Bool} {n : ℕ} {q k : ℤ} {c d : Char} {cs t u m e r w : List Char} {x y : Float}
  {M M' : Machine} {tok : Token}

/-! ### Tokens -/

theorem tokensFrom_eq (skip : ℕ) (cs : List Char) :
    tokensFrom skip cs = tokensFrom 0 (cs.drop skip) := by
  induction skip generalizing cs with
  | zero => rfl
  | succ skip ih =>
      cases cs with
      | nil => rfl
      | cons c cs =>
          rw [tokensFrom, ih]
          rfl

/-- The value of the rest of a formula, from a state of the evaluation. -/
def Machine.rest? (M : Machine) (cs : List Char) : Option Float := do
  let M' ← (← tokensFrom 0 cs).foldlM Machine.step M
  M'.finish

theorem evaluate?_eq (cs : List Char) : evaluate? cs = Machine.rest? {} cs := rfl

theorem rest?_nil : M.rest? [] = M.finish := rfl

/-- Spaces between tokens are passed over. -/
theorem rest?_space (h : isSpace c = true) : M.rest? (c :: cs) = M.rest? cs := by
  simp [Machine.rest?, tokensFrom, h]

/-- A character that begins no token ends the evaluation. -/
theorem rest?_stuck (hs : isSpace c = false) (h : token? c cs = none) :
    M.rest? (c :: cs) = none := by
  simp [Machine.rest?, tokensFrom, hs, h]

/-- A token is one step of the evaluation. -/
theorem rest?_token (hs : isSpace c = false) (h : token? c cs = some (tok, n + 1)) :
    M.rest? (c :: cs) = M.step tok >>= fun M' => M'.rest? (cs.drop n) := by
  have htokens : tokensFrom 0 (c :: cs) = (tokensFrom 0 (cs.drop n)).map (tok :: ·) := by
    rw [tokensFrom, hs, h, ← tokensFrom_eq]
    rfl
  simp only [Machine.rest?, htokens]
  cases tokensFrom 0 (cs.drop n) with
  | none => cases M.step tok <;> rfl
  | some tokens =>
      cases hstep : M.step tok with
      | none => simp [hstep]
      | some M' => simp [hstep]

/-- A blank of another script is no token. -/
theorem token?_blank (h : isBlank c = true) (cs : List Char) : token? c cs = none := by
  have hword : Notation.isWordChar c = false := by
    rw [Bool.eq_false_iff]
    intro hw
    rw [Notation.isBlank_of_isWordChar hw] at h
    exact Bool.noConfusion h
  have hne {d : Char} (hd : isBlank d = false) : c ≠ d := by
    rintro rfl
    rw [hd] at h
    exact Bool.noConfusion h
  simp only [Notation.isWordChar, Char.isAlphanum, Bool.or_eq_false_iff] at hword
  obtain ⟨⟨⟨halpha, hdigit⟩, hunder⟩, -⟩ := hword
  unfold token?
  rw [if_neg (by simp [hdigit]), if_neg (by simp [startsName, halpha, hunder])]
  split
  all_goals first | rfl | exact absurd rfl (hne (by decide))

/-- **Blanks are passed over or end the evaluation.** -/
theorem rest?_of_blanks (hw : Blanks w) (h : M.rest? (w ++ r) = some y) : M.rest? r = some y := by
  induction w with
  | nil => exact h
  | cons c w ih =>
      obtain ⟨hc, hw⟩ := List.forall_mem_cons.1 hw
      rw [List.cons_append] at h
      by_cases hs : isSpace c = true
      · rw [rest?_space hs] at h
        exact ih hw h
      · rw [rest?_stuck (by simpa using hs) (token?_blank hc _)] at h
        cases h

/-! ### Numbers -/

/-- A text that does not go on with a number in front of it. -/
def Stops (r : List Char) : Prop := ∀ c ∈ r.head?, c.isDigit = false ∧ c ≠ '.' ∧ c ≠ 'E'

theorem stops_nil : Stops [] := by simp [Stops]

theorem stops_cons (hd : c.isDigit = false) (hp : c ≠ '.') (hE : c ≠ 'E') (r : List Char) :
    Stops (c :: r) := by
  simp [Stops, hd, hp, hE]

theorem Stops.blanks_append (hr : Stops r) (hw : Blanks w) : Stops (w ++ r) := by
  cases w with
  | nil => exact hr
  | cons c w =>
      have hc := hw c List.mem_cons_self
      have hne {d : Char} (hd : isBlank d = false) : c ≠ d := by
        rintro rfl
        rw [hd] at hc
        exact Bool.noConfusion hc
      refine stops_cons ?_ (hne (by decide)) (hne (by decide)) _
      rw [Bool.eq_false_iff]
      intro hd
      have := Text.toNat_of_isDigit hd
      rw [Text.isBlank_of_visible (by omega) (by omega)] at hc
      exact Bool.noConfusion hc

theorem exponentLength?_append (he : power? e = some k) (hE : ∀ c ∈ e.head?, c = 'E')
    (hr : Stops r) : exponentLength? (e ++ r) = some e.length := by
  cases e with
  | nil =>
      cases r with
      | nil => rfl
      | cons c r =>
          obtain ⟨-, -, hc⟩ := hr c rfl
          rw [List.nil_append]
          unfold exponentLength?
          split
          · rename_i heq
            exact absurd (List.cons.inj heq).1 hc
          · rfl
  | cons c e =>
      obtain rfl := hE c rfl
      obtain ⟨hne, hdigits⟩ := Literal.digits_of_power? he
      obtain ⟨s, -, hs⟩ := Literal.signText_sign e
      have he' : e ≠ [] := by
        rintro rfl
        exact hne rfl
      have hlength : e.length = s.length + (Literal.sign e).2.length := by
        conv_lhs => rw [hs]
        exact List.length_append
      have htake := (Text.takeWhile_append_of_head hdigits fun c hc => (hr c hc).1).1
      rw [List.cons_append]
      simp only [exponentLength?, Literal.sign_append he', htake]
      rw [if_neg (by simpa using hne)]
      simp only [List.length_append, List.length_cons]
      congr 1
      omega

/-- The digits and the power of ten are all of a number. -/
theorem numberLength?_append (hm : Numeral m n q) (he : power? e = some k)
    (hE : ∀ c ∈ e.head?, c = 'E') (hr : Stops r) :
    numberLength? (m ++ (e ++ r)) = some (m.length + e.length) := by
  have hlength := exponentLength?_append he hE hr
  have hhead : ∀ c ∈ (e ++ r).head?, c.isDigit = false ∧ c ≠ '.' := by
    cases e with
    | nil => exact fun c hc => ⟨(hr c hc).1, (hr c hc).2.1⟩
    | cons c e =>
        obtain rfl := hE c rfl
        simp
  generalize e ++ r = z at hlength hhead ⊢
  cases hm with
  | whole hne hw =>
      have htake := (Text.takeWhile_append_of_head hw fun c hc => (hhead c hc).1).1
      have hpoint : ∀ z', z ≠ '.' :: z' := by
        rintro z' rfl
        exact (hhead '.' rfl).2 rfl
      unfold numberLength?
      dsimp only
      rw [htake, List.drop_left]
      split
      · exact absurd rfl (hpoint _)
      · rw [List.drop_left, hlength]
        rfl
  | @pointed w f hne hw hf =>
      have htake := (Text.takeWhile_append_of_head (r := '.' :: (f ++ z)) hw (by simp)).1
      have htake' := (Text.takeWhile_append_of_head hf fun c hc => (hhead c hc).1).1
      have hmantissa : w.length + 1 + f.length = (w ++ '.' :: f).length := by
        simp only [List.length_append, List.length_cons]
        omega
      have hdrop : (w ++ '.' :: (f ++ z)).drop (w ++ '.' :: f).length = z := by
        rw [← List.cons_append, ← List.append_assoc, List.drop_left]
      rw [List.append_assoc, List.cons_append]
      unfold numberLength?
      dsimp only
      simp only [htake, List.drop_left, htake', hmantissa, hdrop, hlength]
      rfl

/-- **A number is one token**, if it begins with a digit. -/
theorem token?_number (hm : Numeral (d :: m) n q) (hd : d.isDigit = true) (he : power? e = some k)
    (hE : ∀ c ∈ e.head?, c = 'E') (hr : Stops r) :
    token? d (m ++ (e ++ r)) =
      some (.number (Arithmetic.ofDecimal n (k + q)), (m ++ e).length + 1) := by
  have hlength := numberLength?_append hm he hE hr
  have hread : Literal.read (d :: m ++ e) = some (.decimal false n (k + q)) := by
    rw [List.cons_append, Literal.read_of_isDigit hd, ← List.cons_append,
      hm.unsigned?_append he]
  have htake : (d :: m ++ (e ++ r)).take ((d :: m).length + e.length) = d :: m ++ e := by
    rw [← List.append_assoc, ← List.length_append, List.take_left]
  unfold token?
  rw [if_pos hd, ← List.cons_append]
  simp only [numberToken?, hlength, htake, hread, Option.bind_eq_bind, Option.bind_some]
  rw [List.length_append, List.length_cons, Nat.add_right_comm]
  rfl

/-! ### Substituted texts -/

theorem substituted_append (t u : List Char) :
    substituted (t ++ u) = substituted t ++ substituted u :=
  List.flatMap_append

/-- Neither blanks nor the characters in front of the letter `e` are replaced. -/
theorem substituted_eq_self (h : ∀ c ∈ t, c.toNat < 0x65 ∨ isBlank c = true) :
    substituted t = t := by
  have hne {d : Char} (hd : 0x65 ≤ d.toNat) (hb : isBlank d = false) : ∀ c ∈ t, c ≠ d := by
    rintro c hc rfl
    rcases h c hc with hlt | hblank
    · omega
    · rw [hb] at hblank
      exact Bool.noConfusion hblank
  have hpi := hne (d := 'π') (by decide) (by decide)
  have hroot := hne (d := '√') (by decide) (by decide)
  have heuler := hne (d := 'e') (by decide) (by decide)
  have hcopy : ∀ c ∈ t, (if c = 'π' then "pi".toList else if c = '√' then "sqrt".toList
      else if c = 'e' then eulerText.toList else [c]) = [c] := by
    intro c hc
    rw [if_neg (hpi c hc), if_neg (hroot c hc), if_neg (heuler c hc)]
  rw [substituted, List.flatMap_congr hcopy, List.flatMap_singleton']

theorem substituted_blanks (hw : Blanks w) : substituted w = w :=
  substituted_eq_self fun c hc => .inr (hw c hc)

theorem substituted_sign (hs : SignText t b) : substituted t = t := by
  cases hs <;> rfl

theorem toNat_of_isDigit_lt (hd : d.isDigit = true) : d.toNat < 0x65 := by
  have := Text.toNat_of_isDigit hd
  omega

theorem substituted_numeral (hm : Numeral m n q) : substituted m = m := by
  refine substituted_eq_self fun c hc => .inl ?_
  rcases hm.digit_or_point c hc with hd | rfl
  · exact toNat_of_isDigit_lt hd
  · decide

theorem substituted_power (he : power? ('E' :: e) = some k) :
    substituted ('E' :: e) = 'E' :: e := by
  obtain ⟨-, hdigits⟩ := Literal.digits_of_power? he
  obtain ⟨s, hs, hsplit⟩ := Literal.signText_sign e
  have hrest : substituted (Literal.sign e).2 = (Literal.sign e).2 :=
    substituted_eq_self fun c hc => .inl (toNat_of_isDigit_lt (hdigits c hc))
  have he' : substituted e = e := by
    rw [hsplit, substituted_append, substituted_sign hs, hrest]
  rw [← List.singleton_append, substituted_append, he']
  rfl

/-! ### Operands -/

section Operands

variable (hM : M.wantsOperand = true)
include hM

/-- A number is an operand. -/
theorem rest?_number (hm : Numeral (d :: m) n q) (hd : d.isDigit = true) (he : power? e = some k)
    (hE : ∀ c ∈ e.head?, c = 'E') (hr : Stops r) :
    M.rest? (d :: m ++ (e ++ r)) = (M.push (Arithmetic.ofDecimal n (k + q))).rest? r := by
  have hspace : isSpace d = false := by
    rw [Bool.eq_false_iff]
    intro hs
    simp only [isSpace, Bool.or_eq_true, beq_iff_eq] at hs
    rcases hs with ((rfl | rfl) | rfl) | rfl <;> exact absurd hd (by decide)
  have hdrop : (m ++ (e ++ r)).drop (m ++ e).length = r := by
    rw [← List.append_assoc, List.drop_left]
  rw [List.cons_append, rest?_token hspace (token?_number hm hd he hE hr), hdrop, Machine.step,
    if_pos hM]
  rfl

/-- **What is left of a number when every `e` is replaced** is rejected or is the number. -/
theorem rest?_of_number (hm : Numeral m n q) (he : power? e = some k) (hr : Stops r)
    (h : M.rest? (m ++ (substituted e ++ r)) = some y) :
    (M.push (Arithmetic.ofDecimal n (k + q))).rest? r = some y := by
  obtain ⟨d, m, rfl⟩ := List.exists_cons_of_ne_nil hm.word.ne_nil
  rcases hm.digit_or_point d List.mem_cons_self with hd | rfl
  · have copied (hE : ∀ c ∈ e.head?, c = 'E') (hcopy : substituted e = e) :
        (M.push (Arithmetic.ofDecimal n (k + q))).rest? r = some y := by
      rwa [hcopy, rest?_number hM hm hd he hE hr] at h
    cases e with
    | nil => exact copied (by simp) rfl
    | cons c e =>
        rcases Literal.head_of_power? he c rfl with rfl | rfl
        · -- the bracket of Euler's number stands where an operator is expected
          obtain ⟨z, hz⟩ : ∃ z, substituted ('e' :: e) ++ r = '(' :: z := ⟨_, rfl⟩
          have hstops : Stops ('(' :: z) := stops_cons rfl (by decide) (by decide) z
          have hnumber := rest?_number hM (e := []) hm hd rfl (by simp) hstops
          rw [hz] at h
          rw [List.nil_append, h] at hnumber
          rw [rest?_token (n := 0) rfl rfl] at hnumber
          cases hnumber
        · exact copied (by simp) (substituted_power he)
  · rw [List.cons_append, rest?_stuck rfl rfl] at h
    cases h

/-- A sign waits for its operand. -/
theorem rest?_of_sign (hs : SignText t b) (h : M.rest? (t ++ r) = some y) :
    (t = [] ∧ M.rest? r = some y) ∨ (M.wait (.sign b)).rest? r = some y := by
  cases hs with
  | none => exact .inl ⟨rfl, h⟩
  | plus =>
      rw [List.singleton_append, rest?_token (n := 0) rfl rfl, Machine.step, if_pos hM] at h
      exact .inr h
  | minus =>
      rw [List.singleton_append, rest?_token (n := 0) rfl rfl, Machine.step, if_pos hM] at h
      exact .inr h

end Operands

/-- The states behind one more operand, whose sign may still have to be applied. -/
inductive Machine.Holding (M : Machine) (x : Float) : Machine → Prop
  | unsigned : Holding M x (M.push x)
  | signed {negates : Bool} {z : Float} (hx : (if negates then -z else z) = x) :
      Holding M x ((M.wait (.sign negates)).push z)

/-- An operand has been read. -/
theorem Machine.Holding.wantsOperand (h : M.Holding x M') : M'.wantsOperand = false := by
  cases h <;> rfl

/-- What applies signs applies the sign of the operand first. -/
theorem Machine.Holding.applyWhile {condition : Pending → Bool} (h : M.Holding x M')
    (hsign : ∀ negates, condition (.sign negates) = true) :
    applyWhile condition M'.values M'.pending = applyWhile condition (x :: M.values) M.pending := by
  cases h with
  | unsigned => rfl
  | signed hx => simp [Machine.push, Machine.wait, Judge.applyWhile, hsign, Pending.apply, hx]

/-- **An operand is rejected or read as the number that it denotes.** -/
theorem rest?_operand (hM : M.wantsOperand = true) (hx : plainNumber? t = some x) (hr : Stops r)
    (h : M.rest? (substituted t ++ r) = some y) : ∃ M', M.Holding x M' ∧ M'.rest? r = some y := by
  obtain ⟨l, hread, hl, hfinite⟩ : ∃ l, Literal.read (Text.trim t) = some l ∧
      Arithmetic.ofLiteral l = x ∧ Arithmetic.isFinite x = true := by
    obtain ⟨hread, hfinite⟩ := Option.filter_eq_some_iff.1 hx
    obtain ⟨l, hread, hl⟩ := Option.map_eq_some_iff.1 hread
    exact ⟨l, hread, hl, hfinite⟩
  cases l with
  | undefined =>
      rw [← hl] at hfinite
      exact absurd hfinite (by decide)
  | infinite b =>
      rw [← hl] at hfinite
      cases b <;> exact absurd hfinite (by decide)
  | decimal b n p =>
      obtain ⟨s, m, e, q, k, hparts, hs, hm, he, rfl⟩ := Literal.exists_parts hread
      obtain ⟨u, v, hu, hv, ht⟩ := Notation.exists_trim t
      have hstops := hr.blanks_append hv
      have hcopy : substituted t ++ r = u ++ (s ++ (m ++ (substituted e ++ (v ++ r)))) := by
        rw [ht, hparts]
        simp only [substituted_append, substituted_blanks hu, substituted_blanks hv,
          substituted_sign hs, substituted_numeral hm, List.append_assoc]
      rw [hcopy] at h
      have hsigned := rest?_of_blanks hu h
      rcases rest?_of_sign hM hs hsigned with ⟨rfl, hnumber⟩ | hnumber
      · obtain rfl : b = false := by cases hs; rfl
        have hbehind := rest?_of_number hM hm he hstops hnumber
        refine ⟨_, .unsigned, rest?_of_blanks hv ?_⟩
        rw [← hl]
        exact hbehind
      · have hbehind := rest?_of_number rfl hm he hstops hnumber
        exact ⟨_, .signed hl, rest?_of_blanks hv hbehind⟩

/-! ### Numbers and quotients -/

/-- **The formula of a number is rejected or has its value.** -/
theorem evaluate?_plainNumber (hx : plainNumber? t = some x)
    (h : evaluate? (substituted t) = some y) : y = x := by
  rw [evaluate?_eq, ← List.append_nil (substituted t)] at h
  obtain ⟨M, hM, hfinish⟩ := rest?_operand rfl hx stops_nil h
  rw [rest?_nil, Machine.finish, hM.wantsOperand, hM.applyWhile (fun _ => rfl)] at hfinish
  exact (Option.some.inj hfinish).symm

/-- **The formula of a quotient is rejected or has its value.** -/
theorem evaluate?_quotient {n d : Float} (hq : quotient? t = some (n, d))
    (h : evaluate? (substituted t) = some y) : y = n / d := by
  obtain ⟨l, r, hcut, hn, hd⟩ : ∃ l r, Text.cut? '/' t = some (l, r) ∧
      plainNumber? l = some n ∧ plainNumber? r = some d := by
    simpa [quotient?, Option.bind_eq_some_iff] using hq
  have hcopy : substituted t = substituted l ++ '/' :: (substituted r ++ []) := by
    rw [Text.cut?_eq hcut, substituted_append, ← List.singleton_append, substituted_append,
      List.append_nil]
    rfl
  rw [evaluate?_eq, hcopy] at h
  have hslash : Stops ('/' :: (substituted r ++ [])) := stops_cons rfl (by decide) (by decide) _
  obtain ⟨M, hM, hrest⟩ := rest?_operand rfl hn hslash h
  -- the slash applies the sign of the numerator, which binds tighter
  have hstep : M.step (.operator .divide) =
      some { values := [n], pending := [.binary .divide], wantsOperand := true } := by
    rw [Machine.step, hM.wantsOperand]
    simp only [Machine.operatorStep]
    rw [hM.applyWhile (fun _ => rfl)]
    rfl
  rw [rest?_token (n := 0) rfl rfl, hstep] at hrest
  obtain ⟨M', hM', hfinish⟩ := rest?_operand rfl hd stops_nil hrest
  rw [rest?_nil, Machine.finish, hM'.wantsOperand, hM'.applyWhile (fun _ => rfl)] at hfinish
  exact (Option.some.inj hfinish).symm

theorem finite?_eq_some_iff : finite? x = some y ↔ x = y ∧ Arithmetic.isFinite y = true := by
  unfold finite?
  split <;> rename_i hx
  · constructor
    · rintro ⟨⟩
      exact ⟨rfl, hx⟩
    · rintro ⟨rfl, -⟩
      rfl
  · constructor
    · rintro ⟨⟩
    · rintro ⟨rfl, hy⟩
      exact absurd hy hx

end Judge

end Reckoner
