/-
**Pairs of brackets.**

The partner of an opening bracket is found by counting brackets from its position on, until none is
open any more; whether all brackets of a text match is found by counting from the beginning, and a
closing bracket that closes none ends the count.  Both are the same notion: two brackets belong
together just when the text between them is matched, wherever they stand and whether or not the rest
of the text is matched.  No bracket belongs to two others, and a text is matched exactly when no
bracket is left without a partner.

Positions are counted in bytes of the encoded text.

Main definitions:

* `Reckoner.Text.StandsAt` — a character at its position;
* `Reckoner.Notation.partner?` — the position of the bracket that closes the one at a position;
* `Reckoner.Notation.ClosesAt` — a closing bracket with a matched text in front of it;
* `Reckoner.Notation.Pair` — two brackets around a matched text;
* `Reckoner.Notation.PairsUp` — every bracket of a text has exactly one partner.

Main results:

* `Reckoner.Text.slice?_eq_some_iff` — the piece of a text between two positions;
* `Reckoner.Notation.Nested.exists_open` — where a bracket is open in a matched text, the last of
  them has a matched text behind it;
* `Reckoner.Notation.nested_or_unpaired` — a text is matched, or a bracket of it has no partner;
* `Reckoner.Notation.pairsUp_iff_nested` — **the brackets of a text pair up just when they match**;
* `Reckoner.Notation.partner?_closesAt` — **the partner of a bracket is the one behind a matched
  text**, and the brackets of a text match exactly when all of them have one partner.
-/

import Reckoner.Proofs.BalancedParts
import Reckoner.Proofs.InPlace

set_option autoImplicit false

namespace Reckoner

/-! ### Characters at their positions -/

namespace Text

variable {l l' m r r' cs : List Char} {c : Char} {p i j : ℕ}

/-- A text from a position between two characters on. -/
@[simp] theorem dropBytes_append (l r : List Char) : dropBytes (byteSize l) (l ++ r) = r := by
  induction l with
  | nil => simp [dropBytes]
  | cons c l ih =>
      obtain ⟨k, hk, -, hrest⟩ := exists_byteSize_cons c l
      rw [hk, List.cons_append, dropBytes, hrest, ih]
      simp

/-- A position cuts a text in one way only. -/
theorem eq_of_byteSize_eq (h : l ++ r = l' ++ r') (hsize : byteSize l = byteSize l') :
    l = l' ∧ r = r' := by
  have hcut := cutAt?_append l r
  rw [h, hsize, cutAt?_append] at hcut
  exact Prod.mk.inj (Option.some.inj hcut.symm)

theorem cutAt?_eq_some_iff : cutAt? p cs = some (l, r) ↔ cs = l ++ r ∧ byteSize l = p := by
  constructor
  · intro h
    induction cs generalizing p l with
    | nil =>
        cases p with
        | zero =>
            obtain ⟨rfl, rfl⟩ := by simpa [cutAt?] using h
            exact ⟨rfl, rfl⟩
        | succ p => simp [cutAt?] at h
    | cons c cs ih =>
        cases p with
        | zero =>
            obtain ⟨rfl, rfl⟩ := by simpa [cutAt?] using h
            exact ⟨rfl, rfl⟩
        | succ p =>
            rw [cutAt?] at h
            split at h
            · obtain ⟨q, hq, heq⟩ := Option.map_eq_some_iff.1 h
              obtain ⟨rfl, rfl⟩ := Prod.mk.inj heq
              obtain ⟨rfl, hsize⟩ := ih hq
              refine ⟨rfl, ?_⟩
              rw [byteSize_cons]
              omega
            · simp at h
  · rintro ⟨rfl, rfl⟩
    exact cutAt?_append l r

/-- The piece of a text between two positions. -/
theorem slice?_eq_some_iff : slice? i j cs = some m ↔
    ∃ l r, cs = l ++ (m ++ r) ∧ byteSize l = i ∧ byteSize l + byteSize m = j := by
  constructor
  · intro h
    unfold slice? at h
    split at h
    · rename_i hle
      obtain ⟨t, ht, hm⟩ := Option.bind_eq_some_iff.1 h
      obtain ⟨⟨l, t'⟩, hl, rfl⟩ := Option.map_eq_some_iff.1 ht
      obtain ⟨⟨m', r⟩, hr, rfl⟩ := Option.map_eq_some_iff.1 hm
      obtain ⟨rfl, rfl⟩ := cutAt?_eq_some_iff.1 hl
      obtain ⟨rfl, hsize⟩ := cutAt?_eq_some_iff.1 hr
      exact ⟨l, r, rfl, rfl, by dsimp only; omega⟩
    · simp at h
  · rintro ⟨l, r, rfl, rfl, rfl⟩
    exact slice?_append l m r

/-- A character at its position. -/
def StandsAt (c : Char) (i : ℕ) (cs : List Char) : Prop :=
  ∃ l r, cs = l ++ c :: r ∧ byteSize l = i

end Text

namespace Notation

open Text (StandsAt byteSize byteSize_append byteSize_cons byteSize_nil dropBytes
  eq_of_byteSize_eq slice? slice?_eq_some_iff)

variable {cs l m r s t : List Char} {i i' j : ℕ}

/-! ### Where a bracket is open -/

/-- In front of every place in a matched text at least as many brackets are opened as closed. -/
theorem Nested.nestingOf_nonneg (h : Nested (s ++ t)) : 0 ≤ nestingOf s := by
  have hbalanced : balancedFrom 0 (s ++ t) = true := h.balanced
  obtain ⟨behind, hbehind, -⟩ := exists_behind hbalanced
  omega

/-- What stands behind an opening bracket of a matched text is not matched by itself. -/
theorem Nested.not_open (h : Nested (s ++ '(' :: t)) : ¬Nested t := by
  intro ht
  have hcount := h.nestingOf_eq
  rw [nestingOf_append, nestingOf_cons, nesting_open, ht.nestingOf_eq] at hcount
  have hnonneg := h.nestingOf_nonneg
  omega

/-- Nor is what stands in front of a closing one. -/
theorem Nested.not_close (h : Nested (s ++ ')' :: t)) : ¬Nested s := by
  intro hs
  have hprefix : 0 ≤ nestingOf (s ++ [')']) :=
    Nested.nestingOf_nonneg (t := t) (by simpa using h)
  rw [nestingOf_append, hs.nestingOf_eq] at hprefix
  simp at hprefix

/-- **Where a bracket is open in a matched text, the last of them has a matched text behind it.** -/
theorem Nested.exists_open (h : Nested (l ++ r)) (hopen : 0 < nestingOf l) :
    ∃ m s, l = m ++ '(' :: s ∧ Nested s := by
  generalize htext : l ++ r = t at h
  induction h generalizing l r with
  | nil =>
      obtain ⟨rfl, -⟩ := List.append_eq_nil_iff.1 htext
      simp at hopen
  | @char c t hc _ ih =>
      cases l with
      | nil => simp at hopen
      | cons d l =>
          obtain ⟨rfl, hrest⟩ := List.cons.inj htext
          rw [nestingOf_cons, hc, zero_add] at hopen
          obtain ⟨m, s, rfl, hs⟩ := ih hopen hrest
          exact ⟨d :: m, s, rfl, hs⟩
  | @group s t hs _ ihs iht =>
      cases l with
      | nil => simp at hopen
      | cons d l =>
          obtain ⟨rfl, hrest⟩ := List.cons.inj htext
          -- the place is behind the group, or in it
          rcases List.append_eq_append_iff.1 hrest with ⟨a, rfl, ha⟩ | ⟨a, rfl, ha⟩
          · -- in it there is an open bracket in front of the place, or only the one of the group
            rcases hs.nestingOf_nonneg.eq_or_lt with hnone | hsome
            · exact ⟨[], l, rfl, (hs.of_append hnone.symm).1⟩
            · obtain ⟨m, s, rfl, hinner⟩ := ihs hsome rfl
              exact ⟨'(' :: m, s, rfl, hinner⟩
          · cases a with
            | nil =>
                rw [List.append_nil]
                exact ⟨[], s, rfl, hs⟩
            | cons d a =>
                obtain ⟨rfl, htail⟩ := List.cons.inj ha
                have hbehind : 0 < nestingOf a := by
                  simpa [hs.nestingOf_eq] using hopen
                obtain ⟨m, s', rfl, hinner⟩ := iht hbehind htail.symm
                exact ⟨'(' :: (s ++ ')' :: m), s', by simp, hinner⟩

/-! ### Brackets without a partner -/

/-- **A text is matched, or a bracket of it has no partner**: a closing one behind a matched
beginning, or an opening one in front of a matched end. -/
theorem nested_or_unpaired (t : List Char) : Nested t ∨
    (∃ l r, t = l ++ ')' :: r ∧ Nested l) ∨ ∃ l r, t = l ++ '(' :: r ∧ Nested r := by
  -- by induction on the length, since the search goes on behind a group
  induction hn : t.length using Nat.strong_induction_on generalizing t with
  | _ n ih =>
      subst hn
      cases t with
      | nil => exact .inl .nil
      | cons c t =>
          by_cases hclose : c = ')'
          · subst hclose
            exact .inr (.inl ⟨[], t, rfl, .nil⟩)
          · by_cases hopen : c = '('
            · subst hopen
              rcases ih _ (by simp) t rfl with ht | ⟨s, r, rfl, hs⟩ | ⟨l, r, rfl, hr⟩
              · exact .inr (.inr ⟨[], t, rfl, ht⟩)
              · -- the bracket is closed, and makes a group with what is between
                rcases ih _ (by simp; omega) r rfl with hr | ⟨l, r, rfl, hl⟩ | ⟨l, r, rfl, hr⟩
                · exact .inl (.group hs hr)
                · exact .inr (.inl ⟨'(' :: (s ++ ')' :: l), r, by simp, .group hs hl⟩)
                · exact .inr (.inr ⟨'(' :: (s ++ ')' :: l), r, by simp, hr⟩)
              · exact .inr (.inr ⟨'(' :: l, r, rfl, hr⟩)
            · have hc : nesting c = 0 := nesting_eq_zero_iff.2 ⟨hopen, hclose⟩
              rcases ih _ (by simp) t rfl with ht | ⟨l, r, rfl, hl⟩ | ⟨l, r, rfl, hr⟩
              · exact .inl (.char hc ht)
              · exact .inr (.inl ⟨c :: l, r, rfl, .char hc hl⟩)
              · exact .inr (.inr ⟨c :: l, r, rfl, hr⟩)

/-! ### Pairs -/

/-- Two brackets around a matched text. -/
def Pair (cs : List Char) (i j : ℕ) : Prop :=
  ∃ l s r, cs = l ++ '(' :: (s ++ ')' :: r) ∧ Nested s ∧ byteSize l = i ∧
    byteSize (l ++ '(' :: s) = j

theorem Pair.standsAt_open (h : Pair cs i j) : StandsAt '(' i cs := by
  obtain ⟨l, s, r, rfl, -, hl, -⟩ := h
  exact ⟨l, _, rfl, hl⟩

theorem Pair.standsAt_close (h : Pair cs i j) : StandsAt ')' j cs := by
  obtain ⟨l, s, r, rfl, -, -, hs⟩ := h
  exact ⟨l ++ '(' :: s, r, by simp, hs⟩

/-- There is only one opening bracket in front of a place with a matched text between them. -/
theorem open_unique (h : l ++ '(' :: s = m ++ '(' :: t) (hs : Nested s) (ht : Nested t) :
    l = m := by
  have shorter {l m s t : List Char} (a : List Char) (hm : m = l ++ a)
      (h : '(' :: s = a ++ '(' :: t) (hs : Nested s) (ht : Nested t) : l = m := by
    cases a with
    | nil => rw [hm, List.append_nil]
    | cons c a =>
        rw [(List.cons.inj h).2] at hs
        exact absurd ht hs.not_open
  rcases List.append_eq_append_iff.1 h with ⟨a, hm, hrest⟩ | ⟨a, hl, hrest⟩
  · exact shorter a hm hrest hs ht
  · exact (shorter a hl hrest ht hs).symm

/-- **A closing bracket has one partner at most.** -/
theorem Pair.open_eq (h : Pair cs i j) (h' : Pair cs i' j) : i = i' := by
  obtain ⟨l, s, r, rfl, hs, rfl, hj⟩ := h
  obtain ⟨l', s', r', htext, hs', rfl, hj'⟩ := h'
  have hsplit : (l ++ '(' :: s) ++ ')' :: r = (l' ++ '(' :: s') ++ ')' :: r' := by
    simpa using htext
  obtain ⟨hfront, -⟩ := eq_of_byteSize_eq hsplit (hj.trans hj'.symm)
  rw [open_unique hfront hs hs']

/-- In a matched text every opening bracket has a partner. -/
theorem Nested.exists_pair_of_open (h : Nested cs) (hi : StandsAt '(' i cs) : ∃ j, Pair cs i j := by
  obtain ⟨l, t, rfl, hl⟩ := hi
  have hbalanced : balancedFrom 0 (l ++ '(' :: t) = true := h.balanced
  obtain ⟨behind, -, hbehind, -⟩ := exists_behind hbalanced
  rw [balancedFrom, if_pos rfl] at hbehind
  obtain ⟨s, r, rfl, hs, -⟩ := nested_of_balancedFrom_succ hbehind
  exact ⟨_, l, s, r, rfl, hs, hl, rfl⟩

/-- So has every closing bracket. -/
theorem Nested.exists_pair_of_close (h : Nested cs) (hj : StandsAt ')' j cs) :
    ∃ i, Pair cs i j := by
  obtain ⟨l, r, rfl, hl⟩ := hj
  have hopen : 0 < nestingOf l := by
    rcases h.nestingOf_nonneg.eq_or_lt with hnone | hsome
    · exact absurd (h.of_append hnone.symm).1 h.not_close
    · exact hsome
  obtain ⟨m, s, rfl, hs⟩ := h.exists_open hopen
  exact ⟨_, m, s, r, by simp, hs, rfl, hl⟩

/-- A text in which every bracket has a partner is matched. -/
theorem nested_of_pairs (hopen : ∀ i, StandsAt '(' i cs → ∃ j, Pair cs i j)
    (hclose : ∀ j, StandsAt ')' j cs → ∃ i, Pair cs i j) : Nested cs := by
  rcases nested_or_unpaired cs with h | ⟨l, r, rfl, hl⟩ | ⟨l, r, rfl, hr⟩
  · exact h
  · obtain ⟨i, m, s, t, htext, hs, -, hsize⟩ := hclose _ ⟨l, r, rfl, rfl⟩
    have hsplit : l ++ ')' :: r = (m ++ '(' :: s) ++ ')' :: t := by simpa using htext
    obtain ⟨rfl, -⟩ := eq_of_byteSize_eq hsplit hsize.symm
    exact absurd hs hl.not_open
  · obtain ⟨j, m, s, t, htext, hs, hsize, -⟩ := hopen _ ⟨l, r, rfl, rfl⟩
    obtain ⟨rfl, hrest⟩ := eq_of_byteSize_eq htext hsize.symm
    rw [(List.cons.inj hrest).2] at hr
    exact absurd hs hr.not_close

/-! ### Partners -/

/-- The position of the bracket that closes the one at a position. -/
def partner? (cs : List Char) (i : ℕ) : Option ℕ :=
  (closing? 0 (dropBytes i cs)).map fun p => i + byteSize p.1

/-- A closing bracket with a matched text in front of it that begins behind a position. -/
def ClosesAt (cs : List Char) (i j : ℕ) : Prop :=
  StandsAt ')' j cs ∧ ∃ s, slice? (i + 1) j cs = some s ∧ balanced s = true

/-- Every opening bracket of a text has exactly one partner, which is a closing one, and every
closing bracket is the partner of exactly one opening bracket. -/
structure PairsUp (cs : List Char) : Prop where
  opening : ∀ i, StandsAt '(' i cs → ∃! j, StandsAt ')' j cs ∧ partner? cs i = some j
  closing : ∀ j, StandsAt ')' j cs → ∃! i, StandsAt '(' i cs ∧ partner? cs i = some j

theorem utf8Size_open : '('.utf8Size = 1 := rfl

/-- **The partner of an opening bracket is the bracket that makes a pair with it.** -/
theorem partner?_eq_some_iff (hi : StandsAt '(' i cs) : partner? cs i = some j ↔ Pair cs i j := by
  obtain ⟨l, t, rfl, rfl⟩ := hi
  have hpartner : partner? (l ++ '(' :: t) (byteSize l) =
      (closing? 1 t).map fun p => byteSize (l ++ '(' :: p.1) := by
    rw [partner?, Text.dropBytes_append, closing?, if_neg (by simp), nesting_open, zero_add,
      Option.map_map]
    simp [Function.comp_def]
  rw [hpartner]
  constructor
  · intro h
    obtain ⟨⟨s, r⟩, hclosing, hj⟩ := Option.map_eq_some_iff.1 h
    obtain ⟨rfl, hs⟩ := closing?_one_iff.1 hclosing
    exact ⟨l, s, r, rfl, hs, rfl, hj⟩
  · rintro ⟨m, s, r, htext, hs, hsize, hj⟩
    obtain ⟨rfl, hrest⟩ := eq_of_byteSize_eq htext hsize.symm
    rw [(List.cons.inj hrest).2, hs.closing?_close, ← hj]
    rfl

/-- The two brackets of a pair stand around a matched text. -/
theorem pair_iff_closesAt (hi : StandsAt '(' i cs) : Pair cs i j ↔ ClosesAt cs i j := by
  constructor
  · intro h
    refine ⟨h.standsAt_close, ?_⟩
    obtain ⟨l, s, r, rfl, hs, rfl, rfl⟩ := h
    refine ⟨s, slice?_eq_some_iff.2 ⟨l ++ ['('], ')' :: r, by simp, ?_, ?_⟩, hs.balanced⟩
    · rw [byteSize_append, byteSize_cons, utf8Size_open, byteSize_nil]
    · simp [utf8Size_open, Nat.add_assoc]
  · rintro ⟨⟨m, r, hm, rfl⟩, s, hslice, hs⟩
    obtain ⟨l, t, rfl, rfl⟩ := hi
    obtain ⟨k, r', hk, hsize, hend⟩ := slice?_eq_some_iff.1 hslice
    -- in front of the slice is the opening bracket, and behind it the closing one
    have hfront : (l ++ ['(']) ++ t = k ++ (s ++ r') := by simpa using hk
    obtain ⟨rfl, rfl⟩ := eq_of_byteSize_eq hfront (by simp [utf8Size_open, hsize])
    have hback : (l ++ '(' :: s) ++ r' = m ++ ')' :: r := by simpa using hm
    obtain ⟨rfl, rfl⟩ := eq_of_byteSize_eq hback (by
      rw [← hend]
      simp [Nat.add_assoc])
    exact ⟨l, s, r, rfl, nested_of_balanced hs, rfl, rfl⟩

/-- **The brackets of a text pair up just when they match.** -/
theorem pairsUp_iff_nested : PairsUp cs ↔ Nested cs := by
  constructor
  · intro h
    refine nested_of_pairs (fun i hi => ?_) fun j hj => ?_
    · obtain ⟨j, ⟨-, hpartner⟩, -⟩ := h.opening i hi
      exact ⟨j, (partner?_eq_some_iff hi).1 hpartner⟩
    · obtain ⟨i, ⟨hi, hpartner⟩, -⟩ := h.closing j hj
      exact ⟨i, (partner?_eq_some_iff hi).1 hpartner⟩
  · intro h
    constructor
    · intro i hi
      obtain ⟨j, hpair⟩ := h.exists_pair_of_open hi
      have hpartner := (partner?_eq_some_iff hi).2 hpair
      refine ⟨j, ⟨hpair.standsAt_close, hpartner⟩, ?_⟩
      rintro k ⟨-, hk⟩
      exact Option.some.inj (hk.symm.trans hpartner)
    · intro j hj
      obtain ⟨i, hpair⟩ := h.exists_pair_of_close hj
      have hi := hpair.standsAt_open
      refine ⟨i, ⟨hi, (partner?_eq_some_iff hi).2 hpair⟩, ?_⟩
      rintro k ⟨hk, hpartner⟩
      exact ((partner?_eq_some_iff hk).1 hpartner).open_eq hpair

/-- **The partner of an opening bracket is the closing bracket behind a matched text**, and there is
none exactly when there is no such bracket; **the brackets of a text match exactly when they pair
up.** -/
theorem partner?_closesAt (cs : List Char) :
    (∀ i, StandsAt '(' i cs → (∀ j, partner? cs i = some j ↔ ClosesAt cs i j) ∧
      (partner? cs i = none ↔ ∀ j, ¬ClosesAt cs i j)) ∧
    (balanced cs = true ↔ PairsUp cs) := by
  refine ⟨fun i hi => ?_, balanced_iff_nested.trans pairsUp_iff_nested.symm⟩
  have hsome (j : ℕ) : partner? cs i = some j ↔ ClosesAt cs i j :=
    (partner?_eq_some_iff hi).trans (pair_iff_closesAt hi)
  refine ⟨hsome, ?_⟩
  rw [Option.eq_none_iff_forall_ne_some]
  exact forall_congr' fun j => not_congr (hsome j)

/-- The first bracket, behind a letter of two bytes, is closed although the text is not matched, and
the last one is not closed. -/
theorem partner?_closesAt_openEnd : StandsAt '(' 2 "ä(a(b)c)d(".toList ∧
    ClosesAt "ä(a(b)c)d(".toList 2 8 ∧ StandsAt '(' 10 "ä(a(b)c)d(".toList ∧
      (∀ j, ¬ClosesAt "ä(a(b)c)d(".toList 10 j) ∧ ¬PairsUp "ä(a(b)c)d(".toList := by
  have hfirst : StandsAt '(' 2 "ä(a(b)c)d(".toList := ⟨['ä'], "a(b)c)d(".toList, rfl, rfl⟩
  have hlast : StandsAt '(' 10 "ä(a(b)c)d(".toList := ⟨"ä(a(b)c)d".toList, [], rfl, rfl⟩
  obtain ⟨hpartner, hbalanced⟩ := partner?_closesAt "ä(a(b)c)d(".toList
  refine ⟨hfirst, ((hpartner 2 hfirst).1 8).1 (by decide), hlast,
    (hpartner 10 hlast).2.1 (by decide), ?_⟩
  rw [← hbalanced]
  decide

end Notation

end Reckoner
