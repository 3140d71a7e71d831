/-
**Scanning over matched brackets.**

The reader of plain notation finds the place where it divides a text by scanning it from the left,
counting brackets and watching for what it looks for.  What matters about the scanners is how they
behave on a text that is put together from pieces: a piece whose brackets match leaves the count
as it was, within brackets it is passed over, and outside brackets a scanner that looks for the
last place of a kind finds it in the last piece that has one.

Main definitions:

* `Reckoner.Notation.Nested` — texts whose brackets match;
* `Reckoner.Notation.lastSeen` — the last character that is not blank;
* `Reckoner.Notation.Seam.run` — what has been read after a text.

Main results:

* `Reckoner.Notation.nested_of_balanced` — a text whose brackets are counted as matched is put
  together from matched pieces;
* `Reckoner.Notation.Nested.closing?_append` — the bracket that closes a matched text is behind it;
* `Reckoner.Notation.enclosed?_append` — a text that goes on behind its first bracket is not
  enclosed;
* `Reckoner.Notation.lastOperator?_append`, `Reckoner.Notation.lastSeam?_append` — **the last place
  is in the last piece that has one**;
* `Reckoner.Notation.Nested.lastOperator?_inside`, `Reckoner.Notation.Nested.lastSeam?_inside` —
  within brackets there is none.
-/

import Mathlib.Tactic
import Reckoner.Notation.Operators

set_option autoImplicit false

namespace Reckoner.Notation

open Text (isBlank)

/-! ### Matched brackets -/

/-- A text whose brackets match. -/
inductive Nested : List Char → Prop
  | nil : Nested []
  | char {c : Char} {t : List Char} : nesting c = 0 → Nested t → Nested (c :: t)
  | group {s t : List Char} : Nested s → Nested t → Nested ('(' :: (s ++ ')' :: t))

@[simp] theorem nesting_open : nesting '(' = 1 := rfl

@[simp] theorem nesting_close : nesting ')' = -1 := rfl

theorem nesting_eq_zero_iff {c : Char} : nesting c = 0 ↔ c ≠ '(' ∧ c ≠ ')' := by
  unfold nesting
  split
  · simp_all
  · split <;> simp_all

variable {s t r : List Char} {c : Char}

theorem nested_of_forall (h : ∀ c ∈ t, nesting c = 0) : Nested t := by
  induction t with
  | nil => exact .nil
  | cons c t ih =>
      obtain ⟨hc, ht⟩ := List.forall_mem_cons.1 h
      exact .char hc (ih ht)

theorem Nested.append (hs : Nested s) (ht : Nested t) : Nested (s ++ t) := by
  induction hs with
  | nil => exact ht
  | char hc _ ih => exact .char hc ih
  | group hi _ _ ih =>
      rw [List.cons_append, List.append_assoc, List.cons_append]
      exact .group hi ih

/-- A matched text leaves the number of open brackets as it was. -/
theorem Nested.balancedFrom_append (h : Nested t) (depth : ℕ) (r : List Char) :
    balancedFrom depth (t ++ r) = balancedFrom depth r := by
  induction h generalizing depth r with
  | nil => rfl
  | char hc _ ih =>
      obtain ⟨ho, hc⟩ := nesting_eq_zero_iff.1 hc
      rw [List.cons_append, balancedFrom, if_neg ho, if_neg hc, ih]
  | group _ _ ihs iht =>
      rw [List.cons_append, List.append_assoc, List.cons_append, balancedFrom, if_pos rfl, ihs,
        balancedFrom, if_neg (by decide), if_pos rfl, Nat.add_sub_cancel, iht]
      simp

theorem Nested.balanced (h : Nested t) : balanced t = true := by
  have := h.balancedFrom_append 0 []
  rw [List.append_nil] at this
  rw [Notation.balanced, this]
  rfl

/-- With brackets open in front of a text, the last of them is closed behind a matched piece. -/
theorem nested_of_balancedFrom_succ {depth : ℕ} (h : balancedFrom (depth + 1) t = true) :
    ∃ s r, t = s ++ ')' :: r ∧ Nested s ∧ balancedFrom depth r = true := by
  induction hn : t.length using Nat.strong_induction_on generalizing depth t with
  | _ n ih =>
      subst hn
      cases t with
      | nil => simp [balancedFrom] at h
      | cons c t =>
          rw [balancedFrom] at h
          split at h
          · -- the bracket is closed first, and the search goes on behind it
            rename_i hc
            subst hc
            obtain ⟨s, r, rfl, hs, hr⟩ := ih _ (by simp) h rfl
            obtain ⟨s', r', rfl, hs', hr'⟩ := ih _ (by simp; omega) hr rfl
            exact ⟨'(' :: (s ++ ')' :: s'), r', by simp, .group hs hs', hr'⟩
          · rename_i hopen
            split at h
            · rename_i hc
              subst hc
              exact ⟨[], t, rfl, .nil, by simpa using h⟩
            · rename_i hclose
              obtain ⟨s, r, rfl, hs, hr⟩ := ih _ (by simp) h rfl
              exact ⟨c :: s, r, rfl, .char (nesting_eq_zero_iff.2 ⟨hopen, hclose⟩) hs, hr⟩

/-- A text whose brackets are counted as matched is put together from matched pieces. -/
theorem nested_of_balanced (h : Notation.balanced t = true) : Nested t := by
  rw [Notation.balanced] at h
  induction hn : t.length using Nat.strong_induction_on generalizing t with
  | _ n ih =>
      subst hn
      cases t with
      | nil => exact .nil
      | cons c t =>
          rw [balancedFrom] at h
          split at h
          · rename_i hc
            subst hc
            obtain ⟨s, r, rfl, hs, hr⟩ := nested_of_balancedFrom_succ h
            exact .group hs (ih _ (by simp; omega) hr rfl)
          · rename_i hopen
            split at h
            · simp at h
            · rename_i hclose
              exact .char (nesting_eq_zero_iff.2 ⟨hopen, hclose⟩) (ih _ (by simp) h rfl)

/-- **The bracket that closes a matched text is behind it.** -/
theorem Nested.closing?_append (h : Nested t) {depth : ℤ} (hd : 1 ≤ depth) (r : List Char) :
    closing? depth (t ++ r) = (closing? depth r).map fun p => (t ++ p.1, p.2) := by
  induction h generalizing depth r with
  | nil => simp
  | char hc _ ih =>
      have hne := (nesting_eq_zero_iff.1 hc).2
      rw [List.cons_append, closing?, if_neg (by simp [hne]), hc, add_zero, ih hd]
      simp [Function.comp_def]
  | group _ _ ihs iht =>
      have hdeep : ¬(')' = ')' ∧ depth + 1 = 1) := by omega
      rw [List.cons_append, List.append_assoc, List.cons_append, closing?,
        if_neg (by simp), nesting_open, ihs (by omega), closing?, if_neg hdeep, nesting_close,
        add_neg_cancel_right, iht hd]
      simp [Function.comp_def]

theorem Nested.closing?_close (h : Nested t) (r : List Char) :
    closing? 1 (t ++ ')' :: r) = some (t, r) := by
  rw [h.closing?_append le_rfl, closing?, if_pos ⟨rfl, rfl⟩]
  simp

theorem enclosed?_group (h : Nested t) : enclosed? ('(' :: (t ++ [')'])) = some t := by
  simp [enclosed?, h.closing?_close]

/-- A text that does not start with a bracket is not enclosed. -/
theorem enclosed?_of_head (h : ∀ r, t ≠ '(' :: r) : enclosed? t = none := by
  unfold enclosed?
  split
  · exact absurd rfl (h _)
  · rfl

theorem enclosed?_of_nesting (hc : nesting c = 0) (r : List Char) : enclosed? (c :: r) = none := by
  refine enclosed?_of_head fun r' heq => ?_
  rw [(List.cons.inj heq).1] at hc
  simp at hc

/-- The content of a pair of brackets around everything is matched. -/
theorem Nested.of_enclosed? (h : Nested t) (he : enclosed? t = some s) : Nested s := by
  cases h with
  | nil => simp [enclosed?] at he
  | @char c t hc _ =>
      rw [enclosed?_of_nesting hc] at he
      simp at he
  | @group i r hi _ =>
      rw [enclosed?, hi.closing?_close] at he
      cases r with
      | nil =>
          obtain rfl := Option.some.inj he
          exact hi
      | cons _ _ => simp at he

/-- **A text that goes on behind its first matched piece is not enclosed.** -/
theorem enclosed?_append (h : Nested s) (hs : s ≠ []) (hr : r ≠ []) :
    enclosed? (s ++ r) = none := by
  cases h with
  | nil => exact absurd rfl hs
  | char hc _ => exact enclosed?_of_nesting hc _
  | @group i t hi _ =>
      have hne : t ++ r ≠ [] := by simp [hr]
      rw [List.cons_append, List.append_assoc, List.cons_append, enclosed?, hi.closing?_close]
      split
      · rename_i heq
        exact absurd (Prod.mk.inj (Option.some.inj heq)).2 hne
      · rfl

/-! ### Characters outside brackets -/

/-- Within brackets no character is looked for. -/
theorem Nested.firstOutside?_inside (h : Nested t) {depth : ℤ} (hd : 1 ≤ depth) (target : Char)
    (r : List Char) : firstOutside? target depth (t ++ r) =
      (firstOutside? target depth r).map fun p => (t ++ p.1, p.2) := by
  induction h generalizing depth r with
  | nil => simp
  | char hc _ ih =>
      rw [List.cons_append, firstOutside?, if_neg (by omega), hc, add_zero, ih hd]
      simp [Function.comp_def]
  | group _ _ ihs iht =>
      rw [List.cons_append, List.append_assoc, List.cons_append, firstOutside?,
        if_neg (by omega), nesting_open, ihs (by omega), firstOutside?, if_neg (by omega),
        nesting_close, add_neg_cancel_right, iht hd]
      simp [Function.comp_def]

/-- A bracket with a matched content is passed over. -/
theorem firstOutside?_group (h : Nested t) (target : Char) (r : List Char) :
    firstOutside? target 0 ('(' :: (t ++ ')' :: r)) =
      (firstOutside? target 0 r).map fun p => ('(' :: (t ++ ')' :: p.1), p.2) := by
  rw [firstOutside?, if_neg (by simp), nesting_open, h.firstOutside?_inside (by omega),
    firstOutside?, if_neg (by simp), nesting_close]
  simp [Function.comp_def]

/-- Other characters are passed over. -/
theorem firstOutside?_of_forall {target : Char} (h : ∀ c ∈ t, nesting c = 0 ∧ c ≠ target)
    (r : List Char) : firstOutside? target 0 (t ++ r) =
      (firstOutside? target 0 r).map fun p => (t ++ p.1, p.2) := by
  induction t with
  | nil => simp
  | cons c t ih =>
      obtain ⟨hc, ht⟩ := List.forall_mem_cons.1 h
      rw [List.cons_append, firstOutside?, if_neg (by simp [hc.2]), hc.1, add_zero, ih ht]
      simp [Function.comp_def]

/-! ### The last operator -/

/-- The last character that is not blank, after a text. -/
def lastSeen (before : Option Char) (t : List Char) : Option Char :=
  t.foldl (fun before c => if isBlank c then before else some c) before

@[simp] theorem lastSeen_append (before : Option Char) (s t : List Char) :
    lastSeen before (s ++ t) = lastSeen (lastSeen before s) t :=
  List.foldl_append

theorem lastSeen_cons (before : Option Char) (c : Char) (t : List Char) :
    lastSeen before (c :: t) = lastSeen (if isBlank c then before else some c) t := rfl

/-- How a text changes the number of open brackets. -/
def nestingOf (t : List Char) : ℤ := (t.map nesting).sum

@[simp] theorem nestingOf_nil : nestingOf [] = 0 := rfl

@[simp] theorem nestingOf_cons (c : Char) (t : List Char) :
    nestingOf (c :: t) = nesting c + nestingOf t := by
  simp [nestingOf]

@[simp] theorem nestingOf_append (s t : List Char) :
    nestingOf (s ++ t) = nestingOf s + nestingOf t := by
  simp [nestingOf]

theorem Nested.nestingOf_eq (h : Nested t) : nestingOf t = 0 := by
  induction h with
  | nil => rfl
  | char hc _ ih => simp [hc, ih]
  | group _ _ ihs iht => simp [ihs, iht]

/-- **The last operator of a text is in the last piece that has one.** -/
theorem lastOperator?_append (ops : Char → Bool) (depth : ℤ) (before : Option Char)
    (s t : List Char) : lastOperator? ops depth before (s ++ t) =
      match lastOperator? ops (depth + nestingOf s) (lastSeen before s) t with
      | some (l, o, r) => some (s ++ l, o, r)
      | none => (lastOperator? ops depth before s).map fun p => (p.1, p.2.1, p.2.2 ++ t) := by
  induction s generalizing depth before with
  | nil =>
      simp only [List.nil_append, nestingOf_nil, add_zero, lastSeen, List.foldl_nil]
      cases lastOperator? ops depth before t with
      | none => rfl
      | some p => rfl
  | cons c s ih =>
      rw [List.cons_append, lastOperator?, ih, nestingOf_cons, ← add_assoc, lastSeen_cons]
      cases lastOperator? ops (depth + nesting c + nestingOf s)
          (lastSeen (if isBlank c then before else some c) s) t with
      | some p => rfl
      | none =>
          simp only [lastOperator?]
          cases lastOperator? ops (depth + nesting c) (if isBlank c then before else some c) s with
          | some p => rfl
          | none =>
              simp only [Option.map_none]
              split <;> simp

/-- Where neither piece has an operator, the whole has none. -/
theorem lastOperator?_append_none {ops : Char → Bool} {depth : ℤ} {before : Option Char}
    (hs : lastOperator? ops depth before s = none)
    (ht : lastOperator? ops (depth + nestingOf s) (lastSeen before s) t = none) :
    lastOperator? ops depth before (s ++ t) = none := by
  rw [lastOperator?_append, ht, hs]
  rfl

/-- Within brackets there is no operator. -/
theorem Nested.lastOperator?_inside (h : Nested t) (ops : Char → Bool) {depth : ℤ}
    (hd : 1 ≤ depth) (before : Option Char) : lastOperator? ops depth before t = none := by
  induction h generalizing depth before with
  | nil => rfl
  | char hc _ ih =>
      have hne : ¬depth = 0 := by omega
      simp [lastOperator?, hc, ih hd, hne]
  | @group s t hs _ ihs iht =>
      have hdeep : lastOperator? ops (depth + 1) (some '(') s = none := ihs (by omega) _
      have hafter := iht hd (some ')')
      have hne : ¬depth = 0 := by omega
      have hclose : lastOperator? ops (depth + 1) (lastSeen (some '(') s) (')' :: t) = none := by
        have hblank : isBlank ')' = false := by decide
        simp [lastOperator?, hblank, hafter]
      have hinner : lastOperator? ops (depth + 1) (some '(') (s ++ ')' :: t) = none := by
        refine lastOperator?_append_none hdeep ?_
        rwa [hs.nestingOf_eq, add_zero]
      have hblank : isBlank '(' = false := by decide
      simp [lastOperator?, hblank, hinner]

/-- A pair of brackets has no operator outside. -/
theorem lastOperator?_group (h : Nested t) (ops : Char → Bool) (before : Option Char) :
    lastOperator? ops 0 before ('(' :: (t ++ [')'])) = none := by
  have hclose : lastOperator? ops 1 (lastSeen (some '(') t) [')'] = none := by
    simp [lastOperator?]
  have hinner : lastOperator? ops 1 (some '(') (t ++ [')']) = none := by
    refine lastOperator?_append_none (h.lastOperator?_inside ops le_rfl _) ?_
    rwa [h.nestingOf_eq, add_zero]
  have hblank : isBlank '(' = false := by decide
  simp [lastOperator?, hblank, hinner]

/-- Characters that are no operators. -/
theorem lastOperator?_of_forall {ops : Char → Bool} (h : ∀ c ∈ t, nesting c = 0 ∧ ops c = false)
    (depth : ℤ) (before : Option Char) : lastOperator? ops depth before t = none := by
  induction t generalizing before with
  | nil => rfl
  | cons c t ih =>
      obtain ⟨hc, ht⟩ := List.forall_mem_cons.1 h
      simp [lastOperator?, hc.1, hc.2, ih ht]

/-! ### The last seam -/

/-- What has been read after a text. -/
def Seam.run (s : Seam) (t : List Char) : Seam := t.foldl Seam.next s

@[simp] theorem Seam.run_nil (s : Seam) : s.run [] = s := rfl

@[simp] theorem Seam.run_cons (s : Seam) (c : Char) (t : List Char) :
    s.run (c :: t) = (s.next c).run t := rfl

@[simp] theorem Seam.run_append (s : Seam) (t u : List Char) :
    s.run (t ++ u) = (s.run t).run u :=
  List.foldl_append

/-- **The last seam of a text is in the last piece that has one.** -/
theorem lastSeam?_append (x : Seam) (s t : List Char) : lastSeam? x (s ++ t) =
    match lastSeam? (x.run s) t with
    | some (l, r) => some (s ++ l, r)
    | none => (lastSeam? x s).map fun p => (p.1, p.2 ++ t) := by
  induction s generalizing x with
  | nil =>
      simp only [List.nil_append, Seam.run_nil]
      cases lastSeam? x t with
      | none => rfl
      | some p => rfl
  | cons c s ih =>
      rw [List.cons_append, lastSeam?, ih, Seam.run_cons]
      cases lastSeam? ((x.next c).run s) t with
      | some p => rfl
      | none =>
          simp only [lastSeam?]
          cases lastSeam? (x.next c) s with
          | some p => rfl
          | none =>
              simp only [Option.map_none]
              split <;> simp

theorem lastSeam?_append_none {x : Seam} (hs : lastSeam? x s = none)
    (ht : lastSeam? (x.run s) t = none) : lastSeam? x (s ++ t) = none := by
  rw [lastSeam?_append, ht, hs]
  rfl

/-- Within brackets there is no seam, and what has been read stays as it was. -/
theorem Nested.lastSeam?_inside (h : Nested t) {x : Seam} (hx : x.depth ≠ 0) :
    lastSeam? x t = none ∧ x.run t = x := by
  induction h generalizing x with
  | nil => exact ⟨rfl, rfl⟩
  | @char c t hc _ ih =>
      obtain ⟨ho, hcl⟩ := nesting_eq_zero_iff.1 hc
      have hnext : x.next c = x := by
        rw [Seam.next, if_pos hx, if_neg ho, if_neg hcl]
      obtain ⟨hnone, hrun⟩ := ih hx
      rw [lastSeam?, Seam.run_cons, hnext, hnone, hrun]
      simp [Seam.splitsAt, hx]
  | @group s t _ _ ihs iht =>
      -- the bracket is opened one deeper and closed again
      have hopen : x.next '(' = { x with depth := x.depth + 1 } := by
        rw [Seam.next, if_pos hx, if_pos rfl]
      have hclose : Seam.next { x with depth := x.depth + 1 } ')' = x := by
        simp [Seam.next, hx]
      obtain ⟨hs, hsrun⟩ := ihs (x := { x with depth := x.depth + 1 }) (by simp)
      obtain ⟨ht, htrun⟩ := iht hx
      have hrest : lastSeam? { x with depth := x.depth + 1 } (s ++ ')' :: t) = none := by
        refine lastSeam?_append_none hs ?_
        rw [hsrun, lastSeam?, hclose, ht]
        simp [Seam.splitsAt]
      rw [lastSeam?, Seam.run_cons, hopen, hrest, Seam.run_append, hsrun, Seam.run_cons, hclose]
      simp [Seam.splitsAt, hx, htrun]

end Reckoner.Notation
