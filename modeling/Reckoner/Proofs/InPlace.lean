/-
**Replacing macros in place.**

Fractions and roots can be brought to plain notation by a loop that keeps one text and a position
in it.  The loop looks for the last macro in front of the position, replaces it where it stands
and goes on in front of it; a macro without its arguments is passed over.  Positions are counted
in bytes of the encoded text, and there is no piece of the text at a position outside of it or
inside a character.

The loop does not say what it relies on: behind the position everything is plain, in front of it
the text is as it was, and no macro lies across the position, although the text behind has changed.
This holds since what is behind begins with the macro that was met last, and neither a macro nor
what it is replaced by completes a macro that begins in front of it.  So every position that is
used is one between two characters, whatever the text is, the loop comes to its end, and it ends
with the text that the recursion gives.

Main definitions:

* `Reckoner.Text.cutAt?`, `Reckoner.Text.slice?` — pieces of a text between positions in bytes;
* `Reckoner.Canonical.replacedAt` — one macro, replaced at its position;
* `Reckoner.Canonical.Editing.turn` — one turn of the loop;
* `Reckoner.Canonical.Editing.Finishes` — the loop ends, with a text;
* `Reckoner.Canonical.Editing.Halfway` — what the loop relies on.

Main results:

* `Reckoner.Canonical.replacedAt_append` — a macro is replaced as the recursion replaces it;
* `Reckoner.Canonical.Editing.Halfway.turn` — **a turn keeps what the loop relies on**, and goes
  on to the left;
* `Reckoner.Canonical.Editing.finishes_iff` — the loop ends with the text of the recursion;
* `Reckoner.Canonical.MacroText.translated_in_place` — **the loop translates by structure**, and it
  ends on every text.
-/

import Reckoner.Proofs.MacroTexts

set_option autoImplicit false

namespace Reckoner

/-! ### Positions -/

namespace Text

variable {l m r cs word : List Char} {c : Char} {p : ℕ}

@[simp] theorem byteSize_nil : byteSize [] = 0 := rfl

@[simp] theorem byteSize_cons (c : Char) (cs : List Char) :
    byteSize (c :: cs) = c.utf8Size + byteSize cs := rfl

@[simp] theorem byteSize_append (l r : List Char) :
    byteSize (l ++ r) = byteSize l + byteSize r := by
  induction l with
  | nil => simp
  | cons c l ih => simp [ih, Nat.add_assoc]

/-- A text cut at a position, if there is a character or the end of the text. -/
def cutAt? : ℕ → List Char → Option (List Char × List Char)
  | 0, cs => some ([], cs)
  | _ + 1, [] => none
  | p + 1, c :: cs =>
      if c.utf8Size ≤ p + 1 then
        (cutAt? (p + 1 - c.utf8Size) cs).map fun q => (c :: q.1, q.2)
      else none

/-- A text up to a position. -/
def upTo? (p : ℕ) (cs : List Char) : Option (List Char) := (cutAt? p cs).map Prod.fst

/-- A text from a position on. -/
def onFrom? (p : ℕ) (cs : List Char) : Option (List Char) := (cutAt? p cs).map Prod.snd

/-- The piece of a text between two positions. -/
def slice? (p q : ℕ) (cs : List Char) : Option (List Char) :=
  if p ≤ q then (onFrom? p cs).bind (upTo? (q - p)) else none

/-- The position of the first occurrence of a character. -/
def position? (c : Char) : List Char → Option ℕ
  | [] => none
  | d :: cs => if d = c then some 0 else (position? c cs).map (d.utf8Size + ·)

/-- The position of the last occurrence of a word. -/
def lastPosition? (word : List Char) : List Char → Option ℕ
  | [] => none
  | c :: cs =>
      match lastPosition? word cs with
      | some p => some (c.utf8Size + p)
      | none => if (after? word (c :: cs)).isSome then some 0 else none

/-- A position behind a character lies further on by its size. -/
theorem exists_byteSize_cons (c : Char) (l : List Char) : ∃ k, byteSize (c :: l) = k + 1 ∧
    c.utf8Size ≤ k + 1 ∧ k + 1 - c.utf8Size = byteSize l := by
  have hpos := c.utf8Size_pos
  rw [byteSize_cons]
  exact ⟨c.utf8Size - 1 + byteSize l, by omega, by omega, by omega⟩

/-- Between two characters a text can be cut. -/
@[simp] theorem cutAt?_append (l r : List Char) : cutAt? (byteSize l) (l ++ r) = some (l, r) := by
  induction l with
  | nil => simp [cutAt?]
  | cons c l ih =>
      obtain ⟨k, hk, hle, hrest⟩ := exists_byteSize_cons c l
      rw [hk, List.cons_append, cutAt?, if_pos hle, hrest, ih]
      rfl

@[simp] theorem upTo?_append (l r : List Char) : upTo? (byteSize l) (l ++ r) = some l := by
  rw [upTo?, cutAt?_append]
  rfl

@[simp] theorem onFrom?_append (l r : List Char) : onFrom? (byteSize l) (l ++ r) = some r := by
  rw [onFrom?, cutAt?_append]
  rfl

theorem slice?_append (l m r : List Char) :
    slice? (byteSize l) (byteSize l + byteSize m) (l ++ (m ++ r)) = some m := by
  rw [slice?, if_pos (Nat.le_add_right _ _), onFrom?_append, Nat.add_sub_cancel_left]
  exact upTo?_append m r

/-- The position of a character is where the text is cut. -/
theorem position?_eq (c : Char) (cs : List Char) :
    position? c cs = (cut? c cs).map fun p => byteSize p.1 := by
  induction cs with
  | nil => rfl
  | cons d cs ih =>
      rw [position?, cut?, ih]
      split
      · rfl
      · simp [Function.comp_def]

end Text

namespace Canonical

open Text

variable {l m r s cs : List Char} {c : Char}

/-! ### Groups at a position -/

/-- Why a macro is not replaced. -/
inductive Fault
  /-- There are no arguments. -/
  | malformed
  /-- There is no piece of the text at a position. -/
  | misplaced

/-- What has to be found in the text. -/
def found {α : Type} : Option α → Except Fault α
  | some a => .ok a
  | none => .error .malformed

/-- What is at a position, or between two. -/
def placed {α : Type} : Option α → Except Fault α
  | some a => .ok a
  | none => .error .misplaced

/-- The position of the brace that closes the last open one, for a text that stands at the position
`p`. -/
def closingPosition? : ℤ → ℕ → List Char → Option ℕ
  | _, _, [] => none
  | depth, p, c :: cs =>
      let depth := if c = '\x7b' then depth + 1 else if c = '\x7d' then depth - 1 else depth
      if c = '\x7d' ∧ depth = 0 then some p else closingPosition? depth (p + c.utf8Size) cs

/-- The content of the group in braces at a position, and the position behind the group. -/
def groupAt (text : List Char) (p : ℕ) : Except Fault (List Char × ℕ) := do
  let here ← placed (onFrom? p text)
  if here.head? = some '\x7b' then
    let close ← found (closingPosition? 0 p here)
    let content ← placed (slice? (p + 1) close text)
    return (content, close + 1)
  else .error .malformed

theorem closingBrace?_eq {depth : ℕ} (h : closingBrace? depth cs = some (s, r)) :
    cs = s ++ '\x7d' :: r := by
  induction cs generalizing depth s with
  | nil => simp [closingBrace?] at h
  | cons c cs ih =>
      rw [closingBrace?] at h
      split at h
      · rename_i hc
        obtain ⟨rfl, rfl⟩ := Prod.mk.inj (Option.some.inj h)
        rw [hc.1]
        rfl
      · obtain ⟨q, hq, he⟩ := Option.map_eq_some_iff.1 h
        obtain ⟨rfl, rfl⟩ := Prod.mk.inj he
        rw [ih hq]
        rfl

/-- The position of the closing brace is where the text is cut. -/
theorem closingPosition?_eq {n : ℕ} (hn : 1 ≤ n) (p : ℕ) (cs : List Char) :
    closingPosition? n p cs = (closingBrace? n cs).map fun q => p + byteSize q.1 := by
  induction cs generalizing n p with
  | nil => rfl
  | cons c cs ih =>
      have further {m : ℕ} (hm : 1 ≤ m) : closingPosition? m (p + c.utf8Size) cs =
          ((closingBrace? m cs).map fun q => (c :: q.1, q.2)).map fun q => p + byteSize q.1 := by
        rw [ih hm, Option.map_map]
        simp [Function.comp_def, Nat.add_assoc]
      rw [closingPosition?, closingBrace?]
      by_cases hopen : c = '\x7b'
      · subst hopen
        simpa using further (m := n + 1) (by omega)
      · by_cases hclose : c = '\x7d'
        · subst hclose
          by_cases hlast : n = 1
          · simp [hlast]
          · have hdeep : ((n : ℤ) - 1) = ((n - 1 : ℕ) : ℤ) := by omega
            have hne : ¬n - 1 = 0 := by omega
            have := further (m := n - 1) (by omega)
            simpa [hlast, hdeep, hne] using this
        · simpa [hopen, hclose] using further hn

theorem braceGroup?_eq (h : braceGroup? m = some (s, r)) :
    m = '\x7b' :: (s ++ '\x7d' :: r) := by
  cases m with
  | nil => simp [braceGroup?] at h
  | cons c m =>
      rw [braceGroup?] at h
      split at h
      · rename_i hc
        rw [hc, closingBrace?_eq h]
      · simp at h

@[simp] theorem found_some {α : Type} (a : α) : found (some a) = .ok a := rfl

@[simp] theorem found_none {α : Type} : found (none : Option α) = .error .malformed := rfl

@[simp] theorem placed_some {α : Type} (a : α) : placed (some a) = .ok a := rfl

/-- A group is found at its position. -/
theorem groupAt_of_some (h : braceGroup? m = some (s, r)) (l : List Char) :
    groupAt (l ++ m) (byteSize l) = .ok (s, byteSize (l ++ '\x7b' :: (s ++ ['\x7d']))) := by
  have hm := braceGroup?_eq h
  have hopen : '\x7b'.utf8Size = 1 := by decide
  have hclose : closingPosition? 0 (byteSize l) m = some (byteSize l + 1 + byteSize s) := by
    rw [hm, braceGroup?, if_pos rfl] at h
    have := closingPosition?_eq (n := 1) le_rfl (byteSize l + 1) (s ++ '\x7d' :: r)
    rw [h] at this
    rw [hm]
    simpa [closingPosition?, hopen] using this
  have hcontent : slice? (byteSize l + 1) (byteSize l + 1 + byteSize s) (l ++ m) = some s := by
    have := slice?_append (l ++ ['\x7b']) s ('\x7d' :: r)
    rw [hm]
    simpa [hopen] using this
  have hend : byteSize l + 1 + byteSize s + 1 = byteSize (l ++ '\x7b' :: (s ++ ['\x7d'])) := by
    have : '\x7d'.utf8Size = 1 := by decide
    simp [hopen, this]
    omega
  have hhead : m.head? = some '\x7b' := by rw [hm]; rfl
  rw [groupAt, onFrom?_append, ← hend]
  simp [hhead, hclose, hcontent, bind, Except.bind, pure, Except.pure]

/-- Without a group nothing is found, but every position is one of the text. -/
theorem groupAt_of_none (h : braceGroup? m = none) (l : List Char) :
    groupAt (l ++ m) (byteSize l) = .error .malformed := by
  rw [groupAt, onFrom?_append]
  cases m with
  | nil => rfl
  | cons c m =>
      rw [braceGroup?] at h
      split at h
      · rename_i hc
        have hclose : closingPosition? 0 (byteSize l) (c :: m) = none := by
          have := closingPosition?_eq (n := 1) le_rfl (byteSize l + '\x7b'.utf8Size) m
          rw [h] at this
          simpa [closingPosition?, hc] using this
        simp [hclose, bind, Except.bind]
      · rename_i hc
        simp [hc, bind, Except.bind]

/-! ### Macros at a position -/

/-- The quotient for the arguments of a fraction at a position, and the position behind them. -/
def fractionAt (text : List Char) (p : ℕ) : Except Fault (List Char × ℕ) := do
  let (num, p) ← groupAt text p
  let (den, p) ← groupAt text p
  return (parenthesized num ++ '/' :: parenthesized den, p)

/-- The call or the power for the arguments of a root at a position, and the position behind
them. -/
def rootAt (text : List Char) (p : ℕ) : Except Fault (List Char × ℕ) := do
  let here ← placed (onFrom? p text)
  if here.head? = some '[' then
    let close ← found ((position? ']' here).map (p + ·))
    let degree ← placed (slice? (p + 1) close text)
    let (radicand, p) ← groupAt text (close + 1)
    return (parenthesized radicand ++ '^' :: parenthesized ("1/".toList ++ parenthesized degree), p)
  else
    let (radicand, p) ← groupAt text p
    return ("sqrt".toList ++ parenthesized radicand, p)

/-- What the macro at a position is replaced by, and the position behind it. -/
def macroAt (text : List Char) (p : ℕ) : Except Fault (List Char × ℕ) := do
  let here ← placed (onFrom? p text)
  if (after? "\\frac".toList here).isSome then fractionAt text (p + byteSize "\\frac".toList)
  else rootAt text (p + byteSize "\\sqrt".toList)

/-- The text in which the macro at a position is replaced. -/
def replacedAt (text : List Char) (p : ℕ) : Except Fault (List Char) := do
  let (new, q) ← macroAt text p
  return (← placed (upTo? p text)) ++ new ++ (← placed (onFrom? q text))

/-- What is done at the position behind `l` is what is done at the front of `m`. -/
def Agrees (l m : List Char) (x : Except Fault (List Char × ℕ)) : Option (List Char) → Prop
  | some out => ∃ new s r, m = s ++ r ∧ out = new ++ r ∧ x = .ok (new, byteSize (l ++ s))
  | none => x = .error .malformed

/-- The last argument of a macro is found behind the others. -/
theorem lastGroupAt_agrees (new : List Char → List Char) (l m : List Char) :
    Agrees l m
      (do
        let (radicand, p) ← groupAt (l ++ m) (byteSize l)
        return (new radicand, p))
      (do
        let (radicand, cs) ← braceGroup? m
        return new radicand ++ cs) := by
  cases hgroup : braceGroup? m with
  | none =>
      rw [groupAt_of_none hgroup]
      rfl
  | some q =>
      obtain ⟨a, r⟩ := q
      rw [groupAt_of_some hgroup]
      refine ⟨_, '\x7b' :: (a ++ ['\x7d']), r, ?_, rfl, rfl⟩
      simp [braceGroup?_eq hgroup]

/-- What stands in front may be counted to either side. -/
theorem Agrees.behind {x : Except Fault (List Char × ℕ)} {out : Option (List Char)}
    (h : Agrees (l ++ s) m x out) : Agrees l (s ++ m) x out := by
  cases out with
  | none => exact h
  | some out =>
      obtain ⟨new, t, r, rfl, rfl, hx⟩ := h
      exact ⟨new, s ++ t, r, by rw [List.append_assoc], rfl, by rw [hx, List.append_assoc]⟩

theorem fractionAt_agrees (l m : List Char) :
    Agrees l m (fractionAt (l ++ m) (byteSize l)) (plainFraction? m) := by
  cases hnum : braceGroup? m with
  | none =>
      have hplain : plainFraction? m = none := by simp [plainFraction?, hnum]
      rw [hplain, fractionAt, groupAt_of_none hnum]
      rfl
  | some q =>
      obtain ⟨a, m'⟩ := q
      obtain rfl : m = '\x7b' :: (a ++ ['\x7d']) ++ m' := by simpa using braceGroup?_eq hnum
      have hplain : plainFraction? ('\x7b' :: (a ++ ['\x7d']) ++ m') = (do
          let (den, cs) ← braceGroup? m'
          return parenthesized a ++ '/' :: parenthesized den ++ cs) := by
        rw [plainFraction?, hnum]
        rfl
      rw [hplain, fractionAt, groupAt_of_some hnum, ← List.append_assoc]
      exact (lastGroupAt_agrees (fun den => parenthesized a ++ '/' :: parenthesized den) _
        m').behind

/-- A root with a degree in square brackets. -/
theorem nthRootAt_agrees (l m : List Char) :
    Agrees l ('[' :: m) (rootAt (l ++ '[' :: m) (byteSize l)) (plainRoot? ('[' :: m)) := by
  have hopen : '['.utf8Size = 1 := by decide
  rw [rootAt, onFrom?_append]
  cases hcut : cut? ']' m with
  | none =>
      have hclose : position? ']' ('[' :: m) = none := by
        rw [position?_eq, cut?, if_neg (by decide), hcut]
        rfl
      have hplain : plainRoot? ('[' :: m) = none := by simp [plainRoot?, hcut]
      rw [hplain]
      simp [Agrees, hclose, bind, Except.bind]
  | some q =>
      obtain ⟨n, r⟩ := q
      have hclose : position? ']' ('[' :: m) = some (1 + byteSize n) := by
        rw [position?_eq, cut?, if_neg (by decide), hcut]
        simp [hopen]
      obtain rfl : m = n ++ ']' :: r := Text.cut?_eq hcut
      have hdegree : slice? (byteSize l + 1) (byteSize l + (1 + byteSize n))
          (l ++ '[' :: (n ++ ']' :: r)) = some n := by
        have := slice?_append (l ++ ['[']) n (']' :: r)
        simpa [hopen, Nat.add_assoc] using this
      have hend : byteSize l + (1 + byteSize n) + 1 = byteSize (l ++ '[' :: (n ++ [']'])) := by
        have : ']'.utf8Size = 1 := by decide
        simp [hopen, this]
        omega
      have hplain : plainRoot? ('[' :: (n ++ ']' :: r)) = (do
          let (radicand, cs) ← braceGroup? r
          return parenthesized radicand ++ '^' :: parenthesized ("1/".toList ++ parenthesized n)
            ++ cs) := by
        rw [plainRoot?, hcut]
        rfl
      have htext : l ++ '[' :: (n ++ ']' :: r) = l ++ '[' :: (n ++ [']']) ++ r := by simp
      have hradicand := lastGroupAt_agrees (fun radicand => parenthesized radicand ++
        '^' :: parenthesized ("1/".toList ++ parenthesized n)) (l ++ '[' :: (n ++ [']'])) r
      have hroot := hradicand.behind
      rw [← htext, ← hend] at hroot
      rw [hplain]
      simpa [hclose, hdegree, bind, Except.bind] using hroot

theorem rootAt_agrees (l m : List Char) :
    Agrees l m (rootAt (l ++ m) (byteSize l)) (plainRoot? m) := by
  by_cases hsquare : m.head? = some '['
  · obtain ⟨m, rfl⟩ := List.head?_eq_some_iff.1 hsquare
    exact nthRootAt_agrees l m
  · have hplain : plainRoot? m = (do
        let (radicand, cs) ← braceGroup? m
        return "sqrt".toList ++ parenthesized radicand ++ cs) := by
      rw [plainRoot?]
      rintro cs rfl
      exact hsquare rfl
    rw [hplain, rootAt, onFrom?_append]
    simp only [placed_some, bind, Except.bind, if_neg hsquare]
    exact lastGroupAt_agrees (fun radicand => "sqrt".toList ++ parenthesized radicand) l m

/-- A macro begins at the front of the text. -/
def beginsMacro (cs : List Char) : Bool :=
  (after? "\\frac".toList cs).isSome || (after? "\\sqrt".toList cs).isSome

theorem macroAt_agrees (h : beginsMacro m = true) (l : List Char) :
    Agrees l m (macroAt (l ++ m) (byteSize l)) (plainMacro? m) := by
  rw [macroAt, onFrom?_append, ← byteSize_append, ← byteSize_append, plainMacro?]
  change Agrees l m (if (after? "\\frac".toList m).isSome then _ else _) _
  cases hfrac : after? "\\frac".toList m with
  | some r =>
      obtain rfl := Text.after?_eq hfrac
      have := (fractionAt_agrees (l ++ "\\frac".toList) r).behind
      rwa [List.append_assoc] at this
  | none =>
      rw [beginsMacro, hfrac] at h
      obtain ⟨r, hsqrt⟩ := Option.isSome_iff_exists.1 h
      have := (rootAt_agrees (l ++ "\\sqrt".toList) r).behind
      rw [List.append_assoc, ← Text.after?_eq hsqrt] at this
      rw [hsqrt]
      exact this

/-- **A macro is replaced as the recursion replaces it**, at every position. -/
theorem replacedAt_append (h : beginsMacro m = true) (l : List Char) :
    replacedAt (l ++ m) (byteSize l) = (found (plainMacro? m)).map (l ++ ·) := by
  have hagrees := macroAt_agrees h l
  rw [replacedAt]
  cases hplain : plainMacro? m with
  | none =>
      rw [hplain] at hagrees
      rw [hagrees]
      rfl
  | some out =>
      rw [hplain] at hagrees
      obtain ⟨new, s, r, rfl, rfl, hat⟩ := hagrees
      have hrest : onFrom? (byteSize (l ++ s)) (l ++ (s ++ r)) = some r := by
        rw [← List.append_assoc, onFrom?_append]
      rw [hat]
      simp only [bind, Except.bind, upTo?_append, hrest, placed_some, pure, Except.pure,
        found_some, Except.map, List.append_assoc]

/-! ### The last macro -/

/-- The position of the last macro. -/
def lastMacro? (cs : List Char) : Option ℕ :=
  max (lastPosition? "\\frac".toList cs) (lastPosition? "\\sqrt".toList cs)

theorem lastMacro?_cons (c : Char) (cs : List Char) :
    lastMacro? (c :: cs) =
      match lastMacro? cs with
      | some p => some (c.utf8Size + p)
      | none => if beginsMacro (c :: cs) then some 0 else none := by
  rw [lastMacro?, lastMacro?, lastPosition?, lastPosition?, beginsMacro]
  cases lastPosition? "\\frac".toList cs with
  | none =>
      cases lastPosition? "\\sqrt".toList cs with
      | none =>
          cases (after? "\\frac".toList (c :: cs)).isSome <;>
            cases (after? "\\sqrt".toList (c :: cs)).isSome <;> rfl
      | some q =>
          cases (after? "\\frac".toList (c :: cs)).isSome
          · rfl
          · simp [Option.max_some_some]
  | some p =>
      cases lastPosition? "\\sqrt".toList cs with
      | none =>
          cases (after? "\\sqrt".toList (c :: cs)).isSome
          · rfl
          · simp 
      | some q =>
          simp [Nat.add_max_add_left]

theorem eq_cons_of_beginsMacro (h : beginsMacro m = true) : ∃ m', m = '\\' :: m' := by
  rw [beginsMacro, Bool.or_eq_true] at h
  rcases h with h | h
  · obtain ⟨r, hr⟩ := Option.isSome_iff_exists.1 h
    exact ⟨_, Text.after?_eq hr⟩
  · obtain ⟨r, hr⟩ := Option.isSome_iff_exists.1 h
    exact ⟨_, Text.after?_eq hr⟩

theorem after?_append_isSome {start : List Char} (h : (after? start m).isSome = true)
    (r : List Char) : (after? start (m ++ r)).isSome = true := by
  obtain ⟨x, hx⟩ := Option.isSome_iff_exists.1 h
  rw [Text.after?_eq hx, List.append_assoc, after?_append]
  rfl

theorem beginsMacro_append (h : beginsMacro m = true) (r : List Char) :
    beginsMacro (m ++ r) = true := by
  rw [beginsMacro, Bool.or_eq_true] at h ⊢
  rcases h with h | h
  · exact .inl (after?_append_isSome h r)
  · exact .inr (after?_append_isSome h r)

/-- The last macro stands between two characters, and none begins behind its first one. -/
theorem lastMacro?_eq_some {p : ℕ} (h : lastMacro? cs = some p) :
    ∃ l m, cs = l ++ '\\' :: m ∧ p = byteSize l ∧ beginsMacro ('\\' :: m) = true ∧
      lastMacro? m = none := by
  induction cs generalizing p with
  | nil => simp [lastMacro?, lastPosition?] at h
  | cons c cs ih =>
      rw [lastMacro?_cons] at h
      cases hlast : lastMacro? cs with
      | some q =>
          rw [hlast] at h
          obtain ⟨l, m, rfl, rfl, hm, hnone⟩ := ih hlast
          exact ⟨c :: l, m, rfl, by simpa using h.symm, hm, hnone⟩
      | none =>
          simp only [hlast, Option.ite_none_right_eq_some, Option.some.injEq] at h
          obtain ⟨hm, rfl⟩ := h
          obtain ⟨m, heq⟩ := eq_cons_of_beginsMacro hm
          obtain ⟨rfl, rfl⟩ := List.cons.inj heq
          exact ⟨[], cs, rfl, rfl, hm, hlast⟩

theorem lastMacro?_cons_eq_none :
    lastMacro? (c :: cs) = none ↔ lastMacro? cs = none ∧ beginsMacro (c :: cs) = false := by
  rw [lastMacro?_cons]
  cases lastMacro? cs <;> simp

/-- No macro that begins in front of the text is completed by it. -/
def CompletesNothing (r : List Char) : Prop :=
  ∀ s, s ≠ [] → beginsMacro s = false → plainMacro? (s ++ r) = none

/-- A beginning that lies across the front of a text has its rest there. -/
theorem eq_of_after?_append {start x : List Char} (hbegins : (after? start s).isSome = false)
    (h : after? start (s ++ r) = some x) :
    ∃ d w, start = s ++ d :: w ∧ r = d :: (w ++ x) := by
  induction s generalizing start with
  | nil =>
      cases start with
      | nil => simp [after?] at hbegins
      | cons d w => exact ⟨d, w, rfl, Text.after?_eq h⟩
  | cons c s ih =>
      cases start with
      | nil => simp [after?] at hbegins
      | cons d start =>
          by_cases hd : d = c
          · subst hd
            rw [after?, if_pos rfl] at hbegins
            rw [List.cons_append, after?, if_pos rfl] at h
            obtain ⟨e, w, rfl, hr⟩ := ih hbegins h
            exact ⟨e, w, rfl, hr⟩
          · rw [List.cons_append, after?, if_neg hd] at h
            simp at h

/-- For the name of a macro, with a part of the macro in front of the text. -/
theorem eq_of_after?_command {name x : List Char} (hs : s ≠ [])
    (hbegins : (after? ('\\' :: name) s).isSome = false)
    (h : after? ('\\' :: name) (s ++ r) = some x) :
    ∃ u d w, name = u ++ d :: w ∧ r = d :: (w ++ x) := by
  obtain ⟨d, w, hname, hr⟩ := eq_of_after?_append hbegins h
  obtain ⟨c, u, rfl⟩ := List.exists_cons_of_ne_nil hs
  exact ⟨u, d, w, (List.cons.inj hname).2, hr⟩

theorem completesNothing_of_head? (h : ∀ d ∈ r.head?, d ∉ "frac".toList ∧ d ∉ "sqrt".toList) :
    CompletesNothing r := by
  intro s hs hbegins
  rw [beginsMacro, Bool.or_eq_false_iff] at hbegins
  have none_of {name : List Char} (hname : ∀ d ∈ r.head?, d ∉ name)
      (hbegins : (after? ('\\' :: name) s).isSome = false) :
      after? ('\\' :: name) (s ++ r) = none := by
    refine Option.eq_none_iff_forall_ne_some.2 fun x hx => ?_
    obtain ⟨u, d, w, rfl, rfl⟩ := eq_of_after?_command hs hbegins hx
    exact hname d rfl (by simp)
  exact plainMacro?_of_after? (none_of (fun d hd => (h d hd).1) hbegins.1)
    (none_of (fun d hd => (h d hd).2) hbegins.2)

/-- A backslash in front of the call for a root begins a macro without its arguments. -/
theorem completesNothing_sqrt (r : List Char) : CompletesNothing ("sqrt(".toList ++ r) := by
  intro s hs hbegins
  rw [beginsMacro, Bool.or_eq_false_iff] at hbegins
  have hfrac : after? "\\frac".toList (s ++ ("sqrt(".toList ++ r)) = none := by
    refine Option.eq_none_iff_forall_ne_some.2 fun x hx => ?_
    obtain ⟨u, d, w, hname, hr⟩ := eq_of_after?_command hs hbegins.1 hx
    have hname : "frac".toList = u ++ d :: w := hname
    have hmem : 's' ∈ "frac".toList := by
      rw [hname, show 's' = d from (List.cons.inj hr).1]
      simp
    exact absurd hmem (by decide)
  cases hsqrt : after? "\\sqrt".toList (s ++ ("sqrt(".toList ++ r)) with
  | none => exact plainMacro?_of_after? hfrac hsqrt
  | some x =>
      obtain ⟨u, d, w, hname, hr⟩ := eq_of_after?_command hs hbegins.2 hsqrt
      have hrest : "qrt".toList ++ '(' :: r = w ++ x := (List.cons.inj hr).2
      have hw : "qrt".toList = w := by
        cases u with
        | nil => exact (List.cons.inj hname).2
        | cons e u =>
            have hname : "qrt".toList = u ++ d :: w := (List.cons.inj hname).2
            have hmem : 's' ∈ "qrt".toList := by
              rw [hname, show 's' = d from (List.cons.inj hr).1]
              simp
            exact absurd hmem (by decide)
      rw [← hw] at hrest
      rw [plainMacro?, hfrac, hsqrt, ← List.append_cancel_left hrest]
      simp [plainRoot?, braceGroup?]

/-- A macro becomes a bracket or a call. -/
theorem plainMacro?_eq_some {out : List Char} (h : plainMacro? cs = some out) :
    (∃ r, out = '(' :: r) ∨ ∃ r, out = "sqrt(".toList ++ r := by
  rw [plainMacro?] at h
  split at h
  · left
    simp only [plainFraction?, Option.bind_eq_bind, Option.bind_eq_some_iff, Option.pure_def,
      Option.some.injEq] at h
    obtain ⟨_, _, _, _, rfl⟩ := h
    exact ⟨_, rfl⟩
  · split at h
    · rw [plainRoot?.eq_def] at h
      split at h
      · left
        simp only [Option.bind_eq_bind, Option.bind_eq_some_iff, Option.pure_def,
          Option.some.injEq] at h
        obtain ⟨_, _, _, _, rfl⟩ := h
        exact ⟨_, rfl⟩
      · right
        simp only [Option.bind_eq_bind, Option.bind_eq_some_iff, Option.pure_def,
          Option.some.injEq] at h
        obtain ⟨_, _, rfl⟩ := h
        exact ⟨_, rfl⟩
    · simp at h

/-- Neither a macro nor what it is replaced by completes another one. -/
theorem completesNothing_plainMacros (m : List Char) :
    CompletesNothing (plainMacros ('\\' :: m)) := by
  rw [plainMacros]
  cases hplain : plainMacro? ('\\' :: plainMacros m) with
  | none =>
      refine completesNothing_of_head? fun d hd => ?_
      obtain rfl : '\\' = d := by simpa using hd
      decide
  | some out =>
      obtain ⟨r, rfl⟩ | ⟨r, rfl⟩ := plainMacro?_eq_some hplain
      · refine completesNothing_of_head? fun d hd => ?_
        obtain rfl : '(' = d := by simpa using hd
        decide
      · exact completesNothing_sqrt r

/-- A text without macros stays, in front of one that completes nothing. -/
theorem plainMacros_append_of_none (h : lastMacro? s = none)
    (hr : CompletesNothing (plainMacros r)) : plainMacros (s ++ r) = s ++ plainMacros r := by
  induction s with
  | nil => rfl
  | cons c s ih =>
      obtain ⟨hs, hbegins⟩ := lastMacro?_cons_eq_none.1 h
      have := hr (c :: s) (by simp) hbegins
      rw [List.cons_append, plainMacros, ih hs, ← List.cons_append, this]
      rfl

/-! ### The loop -/

/-- A text in which macros are being replaced, and the position in front of which the last one is
looked for. -/
structure Editing where
  /-- The text as it is. -/
  text : List Char
  /-- The position, in bytes. -/
  stop : ℕ

namespace Editing

variable {e e' : Editing} {out : List Char}

/-- One turn of the loop: the last macro in front of the position is replaced, or passed over if it
is malformed.  There is nothing left to do when there is none. -/
def turn (e : Editing) : Except Fault (Option Editing) := do
  let head ← placed (upTo? e.stop e.text)
  match lastMacro? head with
  | none => return none
  | some start =>
      match replacedAt e.text start with
      | .ok text => return some ⟨text, start⟩
      | .error .malformed => return some ⟨e.text, start⟩
      | .error .misplaced => throw .misplaced

/-- The loop ends, with a text. -/
inductive Finishes : Editing → List Char → Prop
  | stops {e : Editing} (last : e.turn = .ok none) : Finishes e e.text
  | goesOn {e e' : Editing} {out : List Char} (turn : e.turn = .ok (some e'))
      (rest : Finishes e' out) : Finishes e out

/-- What the loop relies on: behind the position everything is plain and completes no macro, and in
front of it the text is as it was. -/
def Halfway (cs : List Char) (e : Editing) : Prop :=
  ∃ l r, cs = l ++ r ∧ e = ⟨l ++ plainMacros r, byteSize l⟩ ∧ CompletesNothing (plainMacros r)

theorem halfway_start (cs : List Char) : Halfway cs ⟨cs, byteSize cs⟩ :=
  ⟨cs, [], by simp, by simp [plainMacros], completesNothing_of_head? (by simp [plainMacros])⟩

/-- **A turn keeps what the loop relies on**: the loop has come to its end with the text of the
recursion, or it goes on further to the left. -/
theorem Halfway.turn (h : Halfway cs e) :
    (e.turn = .ok none ∧ e.text = plainMacros cs) ∨
      ∃ e', e.turn = .ok (some e') ∧ Halfway cs e' ∧ e'.stop < e.stop := by
  obtain ⟨l, r, rfl, rfl, hr⟩ := h
  cases hlast : lastMacro? l with
  | none =>
      refine .inl ⟨?_, (plainMacros_append_of_none hlast hr).symm⟩
      simp [Editing.turn, hlast, bind, Except.bind, pure, Except.pure]
  | some p =>
      obtain ⟨l, m, rfl, rfl, hm, hnone⟩ := lastMacro?_eq_some hlast
      have hplain : plainMacros ('\\' :: (m ++ r)) =
          (plainMacro? ('\\' :: (m ++ plainMacros r))).getD ('\\' :: (m ++ plainMacros r)) := by
        rw [plainMacros, plainMacros_append_of_none hnone hr]
      have hat := replacedAt_append (beginsMacro_append hm (plainMacros r)) l
      rw [List.cons_append] at hat
      refine .inr ⟨⟨l ++ plainMacros ('\\' :: (m ++ r)), byteSize l⟩, ?_, ?_, ?_⟩
      · rw [Editing.turn, upTo?_append, placed_some]
        have htext : l ++ '\\' :: m ++ plainMacros r = l ++ '\\' :: (m ++ plainMacros r) := by simp
        simp only [bind, Except.bind, hlast, htext, hplain, hat]
        cases plainMacro? ('\\' :: (m ++ plainMacros r)) <;> rfl
      · exact ⟨l, '\\' :: (m ++ r), by simp, rfl, completesNothing_plainMacros _⟩
      · have := '\\'.utf8Size_pos
        simp only [byteSize_append, byteSize_cons]
        omega

theorem Halfway.finishes {e : Editing} (h : Halfway cs e) : Finishes e (plainMacros cs) := by
  obtain ⟨hlast, htext⟩ | ⟨e', hturn, hhalf, hstop⟩ := h.turn
  · rw [← htext]
    exact .stops hlast
  · exact .goesOn hturn hhalf.finishes
termination_by e.stop

/-- The loop ends with one text at most. -/
theorem Finishes.unique {out' : List Char} (h : Finishes e out) (h' : Finishes e out') :
    out = out' := by
  induction h with
  | stops last =>
      cases h' with
      | stops => rfl
      | goesOn turn _ => simp [last] at turn
  | goesOn turn rest ih =>
      cases h' with
      | stops last => simp [last] at turn
      | goesOn turn' rest' =>
          obtain rfl : _ = _ := Option.some.inj (Except.ok.inj (turn.symm.trans turn'))
          exact ih rest'

/-- **The loop ends with the text of the recursion**, on every text: every position is one between
two characters. -/
theorem finishes_iff : Finishes ⟨cs, byteSize cs⟩ out ↔ out = plainMacros cs := by
  have hfinishes := (halfway_start cs).finishes
  constructor
  · intro h
    exact h.unique hfinishes
  · rintro rfl
    exact hfinishes

end Editing

/-- **The loop translates by structure**: fractions, roots and groups at every depth.  It ends on
every text whatsoever, without a position that is outside of the text or inside a character. -/
theorem MacroText.translated_in_place :
    (∀ t : MacroText, ∀ out : List Char,
      Editing.Finishes ⟨t.render, byteSize t.render⟩ out ↔ out = t.translate) ∧
    (∀ t : MacroText, plainMacros t.render = t.translate) ∧
    ∀ cs out : List Char, Editing.Finishes ⟨cs, byteSize cs⟩ out ↔ out = plainMacros cs := by
  have htranslate (t : MacroText) : plainMacros t.render = t.translate := by
    simpa [plainMacros] using t.plainMacros_render []
  refine ⟨fun t out => ?_, htranslate, fun cs out => Editing.finishes_iff⟩
  rw [Editing.finishes_iff, htranslate]

end Canonical

end Reckoner
