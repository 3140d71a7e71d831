/-
**The canonical text of marked-up text.**

The steps that lead from LaTeX to plain notation work on the characters of a text, one step after
the other, and each could disturb what another has left.  They do not when the text is put together
from characters, macros of the table, groups in braces, fractions and roots.  No two macros begin
alike, what a macro is replaced by has no backslash, and the braces of a group match, so that
every step finds the pieces as they were put together.

Main definitions:

* `Reckoner.Canonical.Piece` — a character or a macro;
* `Reckoner.Canonical.Rendered` — marked-up text, and its pieces when fractions and roots are plain;
* `Reckoner.Canonical.Writes` — marked-up text, and the plain notation that it stands for;
* `Reckoner.Canonical.apart` — neighbours between which no product is implied.

Main results:

* `Reckoner.Canonical.Rendered.plainMacros` — fractions and roots become plain at every depth;
* `Reckoner.Canonical.replaceMacros_source` — every macro is replaced by its own meaning;
* `Reckoner.Canonical.Writes.normalizeChars` — **marked-up text becomes what it stands for**, apart
  from implied products;
* `Reckoner.Canonical.insertProducts_append` — implied products are found piece by piece.
-/

import Mathlib.Tactic
import Reckoner.Canonical.Normalize
import Reckoner.Proofs.Characters

set_option autoImplicit false

namespace Reckoner.Canonical

open Text (after? replaceWith replace)

/-! ### Beginnings that differ -/

/-- Two texts differ before either of them ends. -/
def clash : List Char → List Char → Bool
  | c :: cs, d :: ds => c != d || clash cs ds
  | _, _ => false

/-- A beginning is not met at any place of a text, whatever follows the text. -/
def avoids (start : List Char) : List Char → Bool
  | [] => true
  | c :: cs => clash start (c :: cs) && avoids start cs

variable {start word s t r : List Char} {c : Char}

theorem after?_of_clash (h : clash start word = true) (r : List Char) :
    after? start (word ++ r) = none := by
  induction start generalizing word with
  | nil => simp [clash] at h
  | cons d start ih =>
      cases word with
      | nil => simp [clash] at h
      | cons c word =>
          rw [List.cons_append, after?]
          by_cases hd : d = c
          · rw [if_pos hd]
            exact ih (by simpa [clash, hd] using h)
          · rw [if_neg hd]

theorem clash_append (h : clash start word = true) (r : List Char) :
    clash start (word ++ r) = true := by
  induction start generalizing word with
  | nil => simp [clash] at h
  | cons d start ih =>
      cases word with
      | nil => simp [clash] at h
      | cons c word =>
          simp only [clash, Bool.or_eq_true, List.cons_append] at h ⊢
          exact h.imp_right ih

theorem avoids_append (hs : avoids start s = true) (ht : avoids start t = true) :
    avoids start (s ++ t) = true := by
  induction s with
  | nil => exact ht
  | cons c s ih =>
      rw [avoids, Bool.and_eq_true] at hs
      rw [List.cons_append, avoids, Bool.and_eq_true]
      exact ⟨clash_append hs.1 t, ih hs.2⟩

theorem after?_append (start r : List Char) : after? start (start ++ r) = some r := by
  induction start with
  | nil => rfl
  | cons c start ih => rw [List.cons_append, after?, if_pos rfl, ih]

/-- A beginning with a backslash is not met in a text without one. -/
theorem avoids_of_forall (h : ∀ c ∈ word, c ≠ '\\') : avoids ('\\' :: start) word = true := by
  induction word with
  | nil => rfl
  | cons c word ih =>
      obtain ⟨hc, hword⟩ := List.forall_mem_cons.1 h
      simp [avoids, clash, Ne.symm hc, ih hword]

/-! ### Replacement -/

variable {find : List Char → Option (List Char × Nat)}

/-- What is avoided is passed over. -/
theorem replaceWith_append (hfind : ∀ cs, after? start cs = none → find cs = none)
    (h : avoids start word = true) (r : List Char) :
    replaceWith find 0 (word ++ r) = word ++ replaceWith find 0 r := by
  induction word with
  | nil => rfl
  | cons c word ih =>
      rw [avoids, Bool.and_eq_true] at h
      have hnone : find (c :: (word ++ r)) = none := hfind _ (after?_of_clash h.1 r)
      rw [List.cons_append, replaceWith, hnone, ih h.2, List.cons_append]

/-- Characters that are left out. -/
theorem replaceWith_skip (find : List Char → Option (List Char × Nat)) (word r : List Char) :
    replaceWith find word.length (word ++ r) = replaceWith find 0 r := by
  induction word with
  | nil => rfl
  | cons c word ih => rw [List.cons_append, List.length_cons, replaceWith, ih]

/-- What is looked for is replaced. -/
theorem replace_append {old : List Char} (hold : old ≠ []) (new r : List Char) :
    replace old new (old ++ r) = new ++ replace old new r := by
  cases old with
  | nil => exact absurd rfl hold
  | cons c old =>
      have hfind := after?_append (c :: old) r
      rw [replace, List.cons_append, replaceWith, ← List.cons_append, hfind]
      simp only [Option.map_some, List.length_cons, Nat.add_sub_cancel]
      rw [replaceWith_skip]
      rfl

theorem replace_avoids {old : List Char} (new : List Char) (h : avoids old word = true)
    (r : List Char) : replace old new (word ++ r) = word ++ replace old new r :=
  replaceWith_append (fun cs hcs => by rw [hcs]; rfl) h r

theorem operatorName?_of_after? {cs : List Char} (h : after? "\\operatorname".toList cs = none) :
    operatorName? cs = none := by
  rw [operatorName?, h]
  rfl

theorem absolute?_of_after? {cs : List Char} (h : after? "\\left|".toList cs = none) :
    absolute? cs = none := by
  rw [absolute?, h]
  rfl

theorem plainMacro?_of_after? {cs : List Char} (hfrac : after? "\\frac".toList cs = none)
    (hsqrt : after? "\\sqrt".toList cs = none) : plainMacro? cs = none := by
  rw [plainMacro?, hfrac, hsqrt]

/-- Where no fraction and no root begins, nothing changes. -/
theorem plainMacros_append (hfrac : avoids "\\frac".toList word = true)
    (hsqrt : avoids "\\sqrt".toList word = true) (r : List Char) :
    plainMacros (word ++ r) = word ++ plainMacros r := by
  induction word with
  | nil => rfl
  | cons c word ih =>
      rw [avoids, Bool.and_eq_true] at hfrac hsqrt
      have hnone : plainMacro? (c :: (word ++ plainMacros r)) = none :=
        plainMacro?_of_after? (after?_of_clash hfrac.1 _) (after?_of_clash hsqrt.1 _)
      rw [List.cons_append, plainMacros, ih hfrac.2 hsqrt.2, hnone]
      rfl

/-! ### Pieces -/

/-- A piece of a text: a character, or a macro and what it stands for. -/
inductive Piece
  | char (c : Char)
  | command (m : String × String)

namespace Piece

/-- A piece as it is written. -/
def source : Piece → List Char
  | char c => [c]
  | command m => m.1.toList

/-- A piece in plain notation. -/
def plain : Piece → List Char
  | char c => [c]
  | command m => m.2.toList

/-- A piece when some macros have been replaced. -/
def after (done : List (String × String)) : Piece → List Char
  | char c => [c]
  | command m => if m ∈ done then m.2.toList else m.1.toList

/-- A character other than the backslash, or a macro of the table. -/
def Known : Piece → Prop
  | char c => c ≠ '\\'
  | command m => m ∈ macroTable

end Piece

variable {ps qs : List Piece} {p : Piece} {m : String × String}

/-- The macros of the table are told apart from each other and from what is not in the table. -/
theorem macroTable_avoids : ∀ m ∈ macroTable,
    (avoids "\\operatorname".toList m.1.toList = true ∧
      avoids "\\left|".toList m.1.toList = true ∧ avoids "\\frac".toList m.1.toList = true ∧
      avoids "\\sqrt".toList m.1.toList = true) ∧
      ∀ m' ∈ macroTable, m' ≠ m → avoids m.1.toList m'.1.toList = true := by
  decide +kernel

/-- A macro begins with a backslash and has neither another one nor a brace, and what it stands for
has none at all. -/
theorem macroTable_chars : ∀ m ∈ macroTable,
    m.1.toList.head? = some '\\' ∧ (∀ c ∈ m.1.toList, c ≠ '\x7b' ∧ c ≠ '\x7d') ∧
      ∀ c ∈ m.2.toList, c ≠ '\\' ∧ c ≠ '\x7b' ∧ c ≠ '\x7d' := by
  have h : (macroTable.all fun m => m.1.toList.head? == some '\\' &&
      (m.1.toList.all (fun c => c != '\x7b' && c != '\x7d') &&
        m.2.toList.all fun c => c != '\\' && (c != '\x7b' && c != '\x7d'))) = true := by
    decide +kernel
  simpa only [List.all_eq_true, Bool.and_eq_true, beq_iff_eq, bne_iff_ne, ne_eq] using h

/-- A beginning with a backslash is avoided by a piece if it is by the macros of the table. -/
theorem Piece.avoids_source (hp : p.Known)
    (htable : ∀ m ∈ macroTable, avoids ('\\' :: start) m.1.toList = true) :
    avoids ('\\' :: start) p.source = true := by
  cases p with
  | char c =>
      have hc : c ≠ '\\' := hp
      exact avoids_of_forall (by simpa [Piece.source] using hc)
  | command m => exact htable m hp

/-- Names in upright letters and absolute values are met nowhere among the pieces. -/
theorem replaceWith_source (hps : ∀ p ∈ ps, p.Known)
    (hfind : ∀ cs, after? ('\\' :: start) cs = none → find cs = none)
    (htable : ∀ m ∈ macroTable, avoids ('\\' :: start) m.1.toList = true) :
    replaceWith find 0 (ps.flatMap Piece.source) = ps.flatMap Piece.source := by
  induction ps with
  | nil => rfl
  | cons p ps ih =>
      obtain ⟨hp, hrest⟩ := List.forall_mem_cons.1 hps
      rw [List.flatMap_cons, replaceWith_append hfind (p.avoids_source hp htable), ih hrest]

/-! ### The macros of the table -/

/-- The replacement of one macro, when others have been replaced before. -/
theorem Piece.replace_after {done : List (String × String)} (hm : m ∈ macroTable) (hp : p.Known)
    (r : List Char) : replace m.1.toList m.2.toList (p.after done ++ r) =
      p.after (m :: done) ++ replace m.1.toList m.2.toList r := by
  obtain ⟨hhead, -, -⟩ := macroTable_chars m hm
  obtain ⟨name, hname⟩ := List.head?_eq_some_iff.1 hhead
  -- a text without a backslash is passed over
  have plain {t : List Char} (ht : ∀ c ∈ t, c ≠ '\\') :
      replace m.1.toList m.2.toList (t ++ r) = t ++ replace m.1.toList m.2.toList r := by
    refine replace_avoids _ ?_ r
    rw [hname]
    exact avoids_of_forall ht
  cases p with
  | char c =>
      have hc : c ≠ '\\' := hp
      exact plain (by simpa [Piece.after] using hc)
  | command m' =>
      have meaning : ∀ c ∈ m'.2.toList, c ≠ '\\' :=
        fun c hc => ((macroTable_chars m' hp).2.2 c hc).1
      by_cases hdone : m' ∈ done
      · simp only [Piece.after, hdone, List.mem_cons_of_mem, if_true]
        exact plain meaning
      · by_cases heq : m' = m
        · subst heq
          simp only [Piece.after, hdone, List.mem_cons_self, if_false, if_true]
          exact replace_append (by simp [hname]) _ r
        · simp only [Piece.after, hdone, List.mem_cons, heq, false_or, if_false]
          exact replace_avoids _ ((macroTable_avoids m hm).2 m' hp heq) r

theorem replace_after {done : List (String × String)} (hm : m ∈ macroTable)
    (hps : ∀ p ∈ ps, p.Known) : replace m.1.toList m.2.toList (ps.flatMap (Piece.after done)) =
      ps.flatMap (Piece.after (m :: done)) := by
  induction ps with
  | nil => rfl
  | cons p ps ih =>
      obtain ⟨hp, hrest⟩ := List.forall_mem_cons.1 hps
      rw [List.flatMap_cons, Piece.replace_after hm hp, ih hrest, List.flatMap_cons]

/-- **Every macro is replaced by its own meaning.** -/
theorem replaceMacros_source (hps : ∀ p ∈ ps, p.Known) :
    replaceMacros (ps.flatMap Piece.source) = ps.flatMap Piece.plain := by
  -- by induction over the macros of the table that are still to be replaced
  have steps : ∀ (todo done : List (String × String)), (∀ m ∈ todo, m ∈ macroTable) →
      todo.foldl (fun cs m => replace m.1.toList m.2.toList cs) (ps.flatMap (Piece.after done)) =
        ps.flatMap (Piece.after (todo.reverse ++ done)) := by
    intro todo
    induction todo with
    | nil => exact fun done _ => rfl
    | cons m todo ih =>
        intro done htodo
        obtain ⟨hm, htodo⟩ := List.forall_mem_cons.1 htodo
        rw [List.foldl_cons, replace_after hm hps, ih _ htodo, List.reverse_cons,
          List.append_assoc, List.singleton_append]
  have first : ps.flatMap Piece.source = ps.flatMap (Piece.after []) := by
    refine List.flatMap_congr fun p _ => ?_
    cases p <;> simp [Piece.source, Piece.after]
  have last : ps.flatMap (Piece.after (macroTable.reverse ++ [])) = ps.flatMap Piece.plain := by
    refine List.flatMap_congr fun p hp => ?_
    cases p with
    | char c => rfl
    | command m =>
        have hm : m ∈ macroTable := hps _ hp
        simp [Piece.plain, Piece.after, hm]
  rw [replaceMacros, first, steps macroTable [] fun m hm => hm, last]

/-! ### Fractions and roots -/

/-- The pieces of a text without macros. -/
def characters (t : List Char) : List Piece := t.map .char

/-- Marked-up text, and its pieces when its fractions and roots are plain. -/
inductive Rendered : List Char → List Piece → Prop
  | nil : Rendered [] []
  | piece {p : Piece} : p.Known → (∀ c ∈ p.source, c ≠ '\x7b' ∧ c ≠ '\x7d') →
      Rendered p.source [p]
  | append {s t : List Char} {ps qs : List Piece} : Rendered s ps → Rendered t qs →
      Rendered (s ++ t) (ps ++ qs)
  | group {s : List Char} {ps : List Piece} : Rendered s ps →
      Rendered ('\x7b' :: (s ++ ['\x7d'])) (.char '\x7b' :: (ps ++ [.char '\x7d']))
  | fraction {s t : List Char} {ps qs : List Piece} : Rendered s ps → Rendered t qs →
      Rendered ("\\frac".toList ++ '\x7b' :: (s ++ '\x7d' :: '\x7b' :: (t ++ ['\x7d'])))
        (characters ['('] ++ ps ++ characters [')', '/', '('] ++ qs ++ characters [')'])
  | root {s : List Char} {ps : List Piece} : Rendered s ps →
      Rendered ("\\sqrt".toList ++ '\x7b' :: (s ++ ['\x7d']))
        (characters "sqrt(".toList ++ ps ++ characters [')'])

@[simp] theorem source_characters (t : List Char) :
    (characters t).flatMap Piece.source = t := by
  simp [characters, List.flatMap_map, Piece.source]

@[simp] theorem plain_characters (t : List Char) :
    (characters t).flatMap Piece.plain = t := by
  simp [characters, List.flatMap_map, Piece.plain]

theorem known_characters (h : ∀ c ∈ t, c ≠ '\\') : ∀ p ∈ characters t, p.Known := by
  intro p hp
  obtain ⟨c, hc, rfl⟩ := List.mem_map.1 hp
  exact h c hc

theorem Rendered.known (h : Rendered s ps) : ∀ p ∈ ps, p.Known := by
  induction h with
  | nil => simp
  | piece hp _ => simpa using hp
  | append _ _ ihs iht => exact List.forall_mem_append.2 ⟨ihs, iht⟩
  | group _ ih =>
      simp only [List.mem_cons, List.mem_append, List.not_mem_nil, or_false]
      rintro p (rfl | hp | rfl)
      · exact (by decide : '\x7b' ≠ '\\')
      · exact ih p hp
      · exact (by decide : '\x7d' ≠ '\\')
  | fraction _ _ ihs iht =>
      simp only [List.mem_append]
      rintro p ((((hp | hp) | hp) | hp) | hp)
      · exact known_characters (by simp) p hp
      · exact ihs p hp
      · exact known_characters (by simp) p hp
      · exact iht p hp
      · exact known_characters (by simp) p hp
  | root _ ih =>
      simp only [List.mem_append]
      rintro p ((hp | hp) | hp)
      · exact known_characters (by simp) p hp
      · exact ih p hp
      · exact known_characters (by simp) p hp

/-- A text whose braces match is passed over when a closing brace is looked for. -/
def Braced (t : List Char) : Prop :=
  ∀ (depth : ℕ) (r : List Char), 1 ≤ depth →
    closingBrace? depth (t ++ r) = (closingBrace? depth r).map fun p => (t ++ p.1, p.2)

theorem braced_of_forall (h : ∀ c ∈ t, c ≠ '\x7b' ∧ c ≠ '\x7d') : Braced t := by
  intro depth r _
  induction t with
  | nil => simp
  | cons c t ih =>
      obtain ⟨⟨ho, hc⟩, ht⟩ := List.forall_mem_cons.1 h
      rw [List.cons_append, closingBrace?, if_neg (by simp [hc])]
      simp only [ho, hc, if_false, ih ht, Option.map_map]
      rfl

theorem Braced.append (hs : Braced s) (ht : Braced t) : Braced (s ++ t) := by
  intro depth r hd
  rw [List.append_assoc, hs depth _ hd, ht depth _ hd, Option.map_map]
  simp [Function.comp_def]

theorem Braced.group (ht : Braced t) : Braced ('\x7b' :: (t ++ ['\x7d'])) := by
  intro depth r hd
  have hdeep : ¬('\x7d' = '\x7d' ∧ depth + 1 = 1) := by omega
  rw [List.cons_append, List.append_assoc, List.singleton_append, closingBrace?,
    if_neg (by simp)]
  dsimp only
  rw [if_pos rfl, ht _ _ (by omega), closingBrace?, if_neg hdeep]
  simp [Function.comp_def]

/-- The content of a group is found. -/
theorem Braced.braceGroup? (ht : Braced t) (r : List Char) :
    braceGroup? ('\x7b' :: (t ++ '\x7d' :: r)) = some (t, r) := by
  rw [Canonical.braceGroup?, if_pos rfl, ht 1 _ le_rfl, closingBrace?, if_pos ⟨rfl, rfl⟩]
  simp

/-- A fraction with its arguments. -/
theorem plainMacro?_frac (hs : Braced s) (ht : Braced t) (r : List Char) :
    plainMacro? ("\\frac".toList ++
        '\x7b' :: (s ++ '\x7d' :: '\x7b' :: (t ++ '\x7d' :: r))) =
      some (parenthesized s ++ '/' :: parenthesized t ++ r) := by
  simp only [plainMacro?, after?_append, plainFraction?, hs.braceGroup?, ht.braceGroup?,
    Option.bind_eq_bind, Option.bind_some]
  rfl

/-- A square root with its argument. -/
theorem plainMacro?_sqrt (hs : Braced s) (r : List Char) :
    plainMacro? ("\\sqrt".toList ++ '\x7b' :: (s ++ '\x7d' :: r)) =
      some ("sqrt".toList ++ parenthesized s ++ r) := by
  have hfrac : after? "\\frac".toList ("\\sqrt".toList ++ '\x7b' :: (s ++ '\x7d' :: r)) = none :=
    after?_of_clash (by decide) _
  have hroot : plainRoot? ('\x7b' :: (s ++ '\x7d' :: r)) =
      some ("sqrt".toList ++ parenthesized s ++ r) := by
    unfold plainRoot?
    split
    · rename_i heq
      exact absurd (List.cons.inj heq).1 (by decide)
    · rw [hs.braceGroup?]
      rfl
  rw [plainMacro?, hfrac, after?_append]
  exact hroot

/-- The braces match when fractions and roots are plain. -/
theorem Rendered.braced (h : Rendered s ps) : Braced (ps.flatMap Piece.source) := by
  induction h with
  | nil => exact braced_of_forall (by simp)
  | piece _ hp => exact braced_of_forall (by simpa using hp)
  | append _ _ ihs iht =>
      rw [List.flatMap_append]
      exact ihs.append iht
  | group _ ih => simpa [Piece.source] using ih.group
  | fraction _ _ ihs iht =>
      simp only [List.flatMap_append, source_characters]
      have bracket {t : List Char} (ht : ∀ c ∈ t, c ≠ '\x7b' ∧ c ≠ '\x7d') := braced_of_forall ht
      exact ((((bracket (by simp)).append ihs).append (bracket (by simp))).append iht).append
        (bracket (by simp))
  | root _ ih =>
      simp only [List.flatMap_append, source_characters]
      exact ((braced_of_forall (by simp)).append ih).append (braced_of_forall (by simp))

/-- Characters other than the backslash are passed over. -/
theorem plainMacros_of_forall (h : ∀ c ∈ t, c ≠ '\\') (r : List Char) :
    plainMacros (t ++ r) = t ++ plainMacros r :=
  plainMacros_append (avoids_of_forall h) (avoids_of_forall h) r

/-- **Fractions and roots become plain at every depth**, whatever follows. -/
theorem Rendered.plainMacros (h : Rendered s ps) (r : List Char) :
    plainMacros (s ++ r) = ps.flatMap Piece.source ++ Canonical.plainMacros r := by
  have brace {c : Char} (hc : c ≠ '\\') (r : List Char) :
      Canonical.plainMacros (c :: r) = c :: Canonical.plainMacros r :=
    plainMacros_of_forall (t := [c]) (by simpa using hc) r
  induction h generalizing r with
  | nil => rfl
  | @piece p hp _ =>
      have hfrac := p.avoids_source hp fun m hm => (macroTable_avoids m hm).1.2.2.1
      have hsqrt := p.avoids_source hp fun m hm => (macroTable_avoids m hm).1.2.2.2
      simpa using plainMacros_append hfrac hsqrt r
  | append _ _ ihs iht =>
      rw [List.append_assoc, ihs, iht, List.flatMap_append, List.append_assoc]
  | @group s ps _ ih =>
      rw [List.cons_append, brace (by decide), List.append_assoc, ih, List.singleton_append,
        brace (by decide)]
      simp [Piece.source]
  | @fraction s t ps qs hs ht ihs iht =>
      -- the arguments are plain when the macro is reached
      have harguments : Canonical.plainMacros ("frac".toList ++
          '\x7b' :: (s ++ '\x7d' :: '\x7b' :: (t ++ '\x7d' :: r))) = "frac".toList ++
          '\x7b' :: (ps.flatMap Piece.source ++ '\x7d' :: '\x7b' ::
            (qs.flatMap Piece.source ++ '\x7d' :: Canonical.plainMacros r)) := by
        rw [plainMacros_of_forall (by simp), brace (by decide), ihs, brace (by decide),
          brace (by decide), iht, brace (by decide)]
      have hplain := plainMacro?_frac hs.braced ht.braced (Canonical.plainMacros r)
      have hsource : "\\frac".toList ++
          '\x7b' :: (s ++ '\x7d' :: '\x7b' :: (t ++ ['\x7d'])) ++ r = '\\' :: ("frac".toList ++
          '\x7b' :: (s ++ '\x7d' :: '\x7b' :: (t ++ '\x7d' :: r))) := by
        simp
      rw [hsource, Canonical.plainMacros, harguments]
      change (plainMacro? ("\\frac".toList ++ _)).getD _ = _
      rw [hplain]
      simp [parenthesized]
  | @root s ps hs ih =>
      have hargument : Canonical.plainMacros ("sqrt".toList ++ '\x7b' :: (s ++ '\x7d' :: r)) =
          "sqrt".toList ++
          '\x7b' :: (ps.flatMap Piece.source ++ '\x7d' :: Canonical.plainMacros r) := by
        rw [plainMacros_of_forall (by simp), brace (by decide), ih, brace (by decide)]
      have hplain := plainMacro?_sqrt hs.braced (Canonical.plainMacros r)
      have hsource : "\\sqrt".toList ++ '\x7b' :: (s ++ ['\x7d']) ++ r =
          '\\' :: ("sqrt".toList ++ '\x7b' :: (s ++ '\x7d' :: r)) := by
        simp
      rw [hsource, Canonical.plainMacros, hargument]
      change (plainMacro? ("\\sqrt".toList ++ _)).getD _ = _
      rw [hplain]
      simp [parenthesized]

/-- There are no names in upright letters. -/
theorem Rendered.avoids_operatorname (h : Rendered s ps) :
    avoids "\\operatorname".toList s = true := by
  have text {t : List Char} (ht : ∀ c ∈ t, c ≠ '\\') :
      avoids "\\operatorname".toList t = true := avoids_of_forall ht
  have closing {c : Char} (hc : c ≠ '\\') {t : List Char}
      (ht : avoids "\\operatorname".toList t = true) :
      avoids "\\operatorname".toList (c :: t) = true :=
    avoids_append (s := [c]) (text (by simpa using hc)) ht
  induction h with
  | nil => rfl
  | @piece p hp _ => exact p.avoids_source hp fun m hm => (macroTable_avoids m hm).1.1
  | append _ _ ihs iht => exact avoids_append ihs iht
  | group _ ih => exact closing (by decide) (avoids_append ih (text (by simp)))
  | fraction _ _ ihs iht =>
      have hsecond := avoids_append iht (text (t := ['\x7d']) (by simp))
      have hbetween := closing (c := '\x7d') (by decide) (closing (c := '\x7b') (by decide) hsecond)
      have hfirst := avoids_append ihs hbetween
      exact avoids_append (by decide) (closing (by decide) hfirst)
  | root _ ih =>
      have hargument := avoids_append ih (text (t := ['\x7d']) (by simp))
      exact avoids_append (by decide) (closing (by decide) hargument)

/-! ### What marked-up text stands for -/

/-- Marked-up text, and the plain notation that it stands for. -/
def Writes (s t : List Char) : Prop :=
  ∃ ps, Rendered s ps ∧ dropBraces (ps.flatMap Piece.plain) = t

theorem dropBraces_append (s t : List Char) :
    dropBraces (s ++ t) = dropBraces s ++ dropBraces t :=
  List.filter_append ..

theorem dropBraces_eq_self (h : ∀ c ∈ t, c ≠ '\x7b' ∧ c ≠ '\x7d') : dropBraces t = t := by
  refine List.filter_eq_self.2 fun c hc => ?_
  simpa using h c hc

namespace Writes

variable {s' t' : List Char}

theorem nil : Writes [] [] := ⟨[], .nil, rfl⟩

theorem char (hc : c ≠ '\\' ∧ c ≠ '\x7b' ∧ c ≠ '\x7d') : Writes [c] [c] := by
  refine ⟨[.char c], .piece (p := .char c) hc.1 (by simpa [Piece.source] using hc.2), ?_⟩
  exact dropBraces_eq_self (by simpa [Piece.plain] using hc.2)

theorem append (h : Writes s t) (h' : Writes s' t') : Writes (s ++ s') (t ++ t') := by
  obtain ⟨ps, hs, rfl⟩ := h
  obtain ⟨qs, hs', rfl⟩ := h'
  exact ⟨ps ++ qs, hs.append hs', by rw [List.flatMap_append, dropBraces_append]⟩

/-- A text without backslashes and braces stands for itself. -/
theorem text (h : ∀ c ∈ t, c ≠ '\\' ∧ c ≠ '\x7b' ∧ c ≠ '\x7d') : Writes t t := by
  induction t with
  | nil => exact nil
  | cons c t ih =>
      obtain ⟨hc, ht⟩ := List.forall_mem_cons.1 h
      exact (char hc).append (ih ht)

/-- A macro of the table stands for its meaning. -/
theorem command (hm : m ∈ macroTable) : Writes m.1.toList m.2.toList := by
  obtain ⟨-, hname, hplain⟩ := macroTable_chars m hm
  refine ⟨[.command m], .piece (p := .command m) hm hname, ?_⟩
  rw [List.flatMap_singleton]
  exact dropBraces_eq_self fun c hc => (hplain c hc).2

/-- A group loses its braces. -/
theorem group (h : Writes s t) : Writes ('\x7b' :: (s ++ ['\x7d'])) t := by
  obtain ⟨ps, hs, rfl⟩ := h
  refine ⟨_, hs.group, ?_⟩
  simp [dropBraces, Piece.plain]

/-- A fraction is a quotient of brackets. -/
theorem fraction (h : Writes s t) (h' : Writes s' t') :
    Writes ("\\frac".toList ++ '\x7b' :: (s ++ '\x7d' :: '\x7b' :: (s' ++ ['\x7d'])))
      ('(' :: (t ++ [')'] ++ '/' :: '(' :: (t' ++ [')']))) := by
  obtain ⟨ps, hs, rfl⟩ := h
  obtain ⟨qs, hs', rfl⟩ := h'
  refine ⟨_, hs.fraction hs', ?_⟩
  simp [dropBraces]

/-- A square root is a call. -/
theorem root (h : Writes s t) : Writes ("\\sqrt".toList ++ '\x7b' :: (s ++ ['\x7d']))
    ("sqrt(".toList ++ (t ++ [')'])) := by
  obtain ⟨ps, hs, rfl⟩ := h
  refine ⟨_, hs.root, ?_⟩
  simp [dropBraces]

/-- **Marked-up text becomes what it stands for**, apart from implied products. -/
theorem normalizeChars (h : Writes s t) : normalizeChars s = insertProducts t := by
  obtain ⟨ps, hs, rfl⟩ := h
  have hnames : dropOperatorNames s = s := by
    have := replaceWith_append (fun cs => operatorName?_of_after?) hs.avoids_operatorname []
    simpa [dropOperatorNames, replaceWith] using this
  have hmacros : plainMacros s = ps.flatMap Piece.source := by
    simpa [Canonical.plainMacros] using hs.plainMacros []
  have habsolutes : replaceAbsolutes (ps.flatMap Piece.source) = ps.flatMap Piece.source :=
    replaceWith_source hs.known (fun cs => absolute?_of_after?)
      fun m hm => (macroTable_avoids m hm).1.2.1
  rw [Canonical.normalizeChars, hnames, hmacros, habsolutes, replaceMacros_source hs.known]

end Writes

/-! ### Implied products -/

/-- Neighbours between which no product is implied. -/
def apart (c d : Char) : Bool :=
  !(Text.isDecimalDigit c && Text.isLatinLetter d) &&
    !(c == ')' && (Text.isLatinLetter d || d == '('))

/-- No product is implied inside a text. -/
def Explicit (t : List Char) : Prop := t.IsChain fun c d => apart c d = true

theorem apart_of_left (hd : Text.isDecimalDigit c = false) (hc : c ≠ ')') (d : Char) :
    apart c d = true := by
  simp [apart, hd, hc]

theorem apart_of_right {d : Char} (hl : Text.isLatinLetter d = false) (ho : d ≠ '(') (c : Char) :
    apart c d = true := by
  simp [apart, hl, ho]

/-- No product is implied in front of characters that are neither letters nor opening brackets. -/
theorem explicit_of_forall (h : ∀ d ∈ t, Text.isLatinLetter d = false ∧ d ≠ '(') : Explicit t := by
  induction t with
  | nil => exact .nil
  | cons c t ih =>
      obtain ⟨-, ht⟩ := List.forall_mem_cons.1 h
      refine List.isChain_cons.2 ⟨?_, ih ht⟩
      intro d hd
      obtain ⟨hl, ho⟩ := ht d (List.mem_of_mem_head? hd)
      exact apart_of_right hl ho c

theorem explicit_of_digits (h : ∀ d ∈ t, d.isDigit = true) : Explicit t := by
  refine explicit_of_forall ?_
  intro d hd
  have hdigit := Text.toNat_of_isDigit (h d hd)
  constructor
  · rw [Bool.eq_false_iff]
    intro hletter
    have := Text.toNat_of_isAlpha hletter
    omega
  · rintro rfl
    exact absurd hdigit (by decide)

/-- The blank and the operators. -/
def isSeparator (c : Char) : Bool := [' ', '+', '-', '*', '/', '^'].contains c

theorem mem_separators (h : isSeparator c = true) :
    c = ' ' ∨ c = '+' ∨ c = '-' ∨ c = '*' ∨ c = '/' ∨ c = '^' := by
  simpa [isSeparator] using h

/-- On neither side of a separator a product is implied. -/
theorem apart_of_isSeparator (h : isSeparator c = true) (d : Char) :
    apart c d = true ∧ apart d c = true := by
  have hkind : Text.isDecimalDigit c = false ∧ c ≠ ')' ∧
      Text.isLatinLetter c = false ∧ c ≠ '(' := by
    rcases mem_separators h with rfl | rfl | rfl | rfl | rfl | rfl <;> decide
  obtain ⟨hdigit, hclose, hletter, hopen⟩ := hkind
  exact ⟨apart_of_left hdigit hclose d, apart_of_right hletter hopen d⟩

/-- Texts around a separator. -/
theorem Explicit.joined (hs : Explicit s) (hc : isSeparator c = true) (ht : Explicit t) :
    Explicit (s ++ c :: t) := by
  have hbehind : Explicit (c :: t) :=
    List.isChain_cons.2 ⟨fun d _ => (apart_of_isSeparator hc d).1, ht⟩
  refine List.isChain_append.2 ⟨hs, hbehind, ?_⟩
  intro d _ d' hd'
  obtain rfl := Option.some.inj hd'
  exact (apart_of_isSeparator hc d).2

/-- Brackets around a text. -/
theorem Explicit.group (ht : Explicit t) : Explicit ('(' :: (t ++ [')'])) := by
  have hopen : ∀ d, apart '(' d = true := apart_of_left (by decide) (by decide)
  have hclose : ∀ c, apart c ')' = true := apart_of_right (by decide) (by decide)
  have hbehind : Explicit (t ++ [')']) := by
    refine List.isChain_append.2 ⟨ht, List.isChain_singleton _, ?_⟩
    intro c _ d hd
    obtain rfl := Option.some.inj hd
    exact hclose c
  exact List.isChain_cons.2 ⟨fun d _ => hopen d, hbehind⟩

/-- A sign of multiplication is wanted only between neighbours that are not apart. -/
def OnlyBetween (wants : Char → List Char → Bool) : Prop :=
  ∀ c r, wants c r = true → ∃ d ∈ r.head?, apart c d = false

theorem onlyBetween_digitThenLetter : OnlyBetween digitThenLetter := by
  intro c r h
  cases r with
  | nil => simp [digitThenLetter] at h
  | cons d r => exact ⟨d, rfl, by simp_all [digitThenLetter, apart]⟩

theorem onlyBetween_closeThenOpen : OnlyBetween closeThenOpen := by
  intro c r h
  cases r with
  | nil => simp [closeThenOpen] at h
  | cons d r => exact ⟨d, rfl, by simp_all [closeThenOpen, apart]⟩

theorem onlyBetween_closeThenName : OnlyBetween closeThenName := by
  intro c r h
  cases r with
  | nil => simp [closeThenName] at h
  | cons d r => exact ⟨d, rfl, by simp_all [closeThenName, apart]⟩

variable {wants : Char → List Char → Bool}

theorem head?_insertTimes (t : List Char) : (insertTimes wants t).head? = t.head? := by
  cases t with
  | nil => rfl
  | cons c t =>
      rw [insertTimes]
      split <;> rfl

/-- A text that is apart, also from what follows it, is left as it is. -/
theorem insertTimes_append (hwants : OnlyBetween wants) (h : Explicit (s ++ r.head?.toList)) :
    insertTimes wants (s ++ r) = s ++ insertTimes wants r := by
  induction s with
  | nil => rfl
  | cons c s ih =>
      rw [Explicit, List.cons_append] at h
      have hrest : insertTimes wants (s ++ r) = s ++ insertTimes wants r := ih h.tail
      have hnot : wants c (s ++ r) = false := by
        rw [Bool.eq_false_iff]
        intro hw
        obtain ⟨d, hd, hapart⟩ := hwants c (s ++ r) hw
        have hhead : d ∈ (s ++ r.head?.toList).head? := by
          cases s with
          | nil => cases r <;> simp_all
          | cons _ _ => exact hd
        have := List.isChain_cons.1 h |>.1 d hhead
        rw [hapart] at this
        simp at this
      rw [List.cons_append, insertTimes, hnot, hrest]
      rfl

/-- **Implied products are found piece by piece**: a text that is apart, also from what follows it,
is left as it is. -/
theorem insertProducts_append (h : Explicit (s ++ r.head?.toList)) :
    insertProducts (s ++ r) = s ++ insertProducts r := by
  have hnumbers := insertTimes_append onlyBetween_digitThenLetter h
  have hgroups : insertTimes closeThenOpen (s ++ insertTimes digitThenLetter r) =
      s ++ insertTimes closeThenOpen (insertTimes digitThenLetter r) :=
    insertTimes_append onlyBetween_closeThenOpen (by rwa [head?_insertTimes])
  have hnames : insertTimes closeThenName
      (s ++ insertTimes closeThenOpen (insertTimes digitThenLetter r)) =
      s ++ insertProducts r :=
    insertTimes_append onlyBetween_closeThenName (by rwa [head?_insertTimes, head?_insertTimes])
  rw [insertProducts, hnumbers, hgroups, hnames]

theorem Explicit.insertProducts (h : Explicit t) : insertProducts t = t := by
  have := insertProducts_append (r := []) (by simpa using h)
  simpa [Canonical.insertProducts, insertTimes] using this

end Reckoner.Canonical
