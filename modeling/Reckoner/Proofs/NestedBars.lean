/-
**Absolute values inside absolute values.**

An absolute value stands between a left and a right bar, and it becomes the call of a function.
The bars are properly nested, as brackets are, but the step that replaces them counts nothing: a
left bar is closed by the *next* right bar, which must be on the same line.  So it finds the bar
that belongs to a left bar when there are only characters of one line between the two.  Otherwise
it takes a bar that belongs to another pair, or none at all, and a bar stays in the text as it is.

Main definitions:

* `Reckoner.Canonical.BarText` — texts with properly nested bars;
* `Reckoner.Canonical.BarText.render` — such a text in LaTeX;
* `Reckoner.Canonical.BarText.calls` — the text in which every pair of bars is a call;
* `Reckoner.Canonical.BarText.isFlat` — every pair of bars is around characters of one line.

Main results:

* `Reckoner.Canonical.BarText.replaceAbsolutes_of_isFlat` — flat bars become calls;
* `Reckoner.Canonical.BarText.backslash_mem_of_not_isFlat` — of other bars some are left;
* `Reckoner.Canonical.BarText.replaceAbsolutes_render_iff` — **the bars are matched just when none
  are inside others**, and then there are none left.
-/

import Reckoner.Proofs.Markup

set_option autoImplicit false

namespace Reckoner.Canonical

open Text (after? replaceWith)

/-! ### Texts with bars -/

/-- A text in which bars are properly nested. -/
inductive BarText
  | nil
  | char (c : Char) (ne_backslash : c ≠ '\\') (rest : BarText)
  /-- A pair of bars around a text. -/
  | bars (inner rest : BarText)

namespace BarText

/-- The text in LaTeX. -/
def render : BarText → List Char
  | nil => []
  | char c _ t => c :: t.render
  | bars s t => "\\left|".toList ++ (s.render ++ ("\\right|".toList ++ t.render))

/-- The text in which every pair of bars is a call around exactly what stands between the two. -/
def calls : BarText → List Char
  | nil => []
  | char c _ t => c :: t.calls
  | bars s t => "abs(".toList ++ (s.calls ++ ')' :: t.calls)

/-- Characters of one line, without bars. -/
def isLine : BarText → Bool
  | nil => true
  | char c _ t => c != '\n' && t.isLine
  | bars _ _ => false

/-- Every pair of bars is around characters of one line. -/
def isFlat : BarText → Bool
  | nil => true
  | char _ _ t => t.isFlat
  | bars s t => s.isLine && t.isFlat

variable {s t : BarText}

/-- There are no bars left where every pair is a call. -/
theorem ne_backslash_of_mem_calls (t : BarText) : ∀ c ∈ t.calls, c ≠ '\\' := by
  induction t with
  | nil => simp [calls]
  | char c hc t ih =>
      intro d hd
      rcases List.mem_cons.1 hd with rfl | hd
      · exact hc
      · exact ih d hd
  | bars s t ihs iht =>
      have hname : ∀ d ∈ "abs(".toList, d ≠ '\\' := by simp
      intro d hd
      rcases List.mem_append.1 hd with hd | hd
      · exact hname d hd
      · rcases List.mem_append.1 hd with hd | hd
        · exact ihs d hd
        · rcases List.mem_cons.1 hd with rfl | hd
          · decide
          · exact iht d hd

/-- A line is written as it is. -/
theorem calls_of_isLine (h : s.isLine = true) : s.calls = s.render := by
  induction s with
  | nil => rfl
  | char c hc s ih =>
      rw [isLine, Bool.and_eq_true] at h
      rw [calls, render, ih h.2]
  | bars s t => simp [isLine] at h

/-! ### The next right bar -/

theorem beforeRightBar?_cons {c : Char} (hc : c ≠ '\\') (r : List Char) :
    beforeRightBar? (c :: r) = if c = '\n' then none else (beforeRightBar? r).map (c :: ·) := by
  have hclash : clash "\\right|".toList [c] = true := by simp [clash, Ne.symm hc]
  have hbar : after? "\\right|".toList (c :: r) = none := after?_of_clash hclash r
  rw [beforeRightBar?, hbar]
  rfl

/-- The right bar behind a line is the next one. -/
theorem beforeRightBar?_of_isLine (h : s.isLine = true) (r : List Char) :
    beforeRightBar? (s.render ++ ("\\right|".toList ++ r)) = some s.render := by
  induction s with
  | nil =>
      have hbar := after?_append "\\right|".toList r
      change beforeRightBar? ('\\' :: ("right|".toList ++ r)) = some []
      rw [beforeRightBar?]
      change (if (after? "\\right|".toList ("\\right|".toList ++ r)).isSome then _ else _) = _
      rw [hbar]
      rfl
  | char c hc s ih =>
      rw [isLine, Bool.and_eq_true, bne_iff_ne] at h
      rw [render, List.cons_append, beforeRightBar?_cons hc, if_neg h.1, ih h.2]
      rfl
  | bars s t => simp [isLine] at h

/-- Where there is no line, a left bar stands in front of the next right bar, if there is one. -/
theorem backslash_mem_of_beforeRightBar? (h : s.isLine = false) {r w : List Char}
    (hw : beforeRightBar? (s.render ++ r) = some w) : '\\' ∈ w := by
  induction s generalizing w with
  | nil => simp [isLine] at h
  | char c hc s ih =>
      rw [render, List.cons_append, beforeRightBar?_cons hc] at hw
      split at hw
      · simp at hw
      · rename_i hline
        obtain ⟨w, hrest, rfl⟩ := Option.map_eq_some_iff.1 hw
        have hs : s.isLine = false := by simpa [isLine, hline] using h
        exact List.mem_cons_of_mem c (ih hs hrest)
  | bars s t =>
      have hbar : after? "\\right|".toList ((bars s t).render ++ r) = none := by
        rw [render, List.append_assoc]
        exact after?_of_clash (by decide) _
      rw [render, List.append_assoc] at hbar hw
      change beforeRightBar? ('\\' :: _) = _ at hw
      change after? "\\right|".toList ('\\' :: _) = _ at hbar
      rw [beforeRightBar?, hbar] at hw
      obtain ⟨w, -, rfl⟩ := Option.map_eq_some_iff.1 hw
      exact List.mem_cons_self

/-! ### The replacement -/

theorem replaceAbsolutes_cons {c : Char} (hc : c ≠ '\\') (r : List Char) :
    replaceAbsolutes (c :: r) = c :: replaceAbsolutes r := by
  have havoids : avoids "\\left|".toList [c] = true := avoids_of_forall (by simpa using hc)
  exact replaceWith_append (fun _ => absolute?_of_after?) havoids r

/-- A left bar is an absolute value up to the next right bar. -/
theorem absolute?_leftBar (r : List Char) : absolute? ("\\left|".toList ++ r) =
    (beforeRightBar? r).map fun w => ("abs(".toList ++ w ++ [')'], w.length + 13) := by
  have hlength : "\\left|\\right|".length = 13 := by decide
  simp only [absolute?, after?_append, hlength, Option.bind_eq_bind, Option.bind_some]
  cases beforeRightBar? r with
  | none => rfl
  | some w => simp [Nat.add_comm]

/-- What becomes of a left bar depends on the next right bar only. -/
theorem replaceAbsolutes_leftBar (r : List Char) :
    replaceAbsolutes ("\\left|".toList ++ r) =
      match beforeRightBar? r with
      | some w => "abs(".toList ++ w ++ [')'] ++
          replaceWith absolute? (w.length + 12) ("left|".toList ++ r)
      | none => '\\' :: replaceAbsolutes ("left|".toList ++ r) := by
  have hfront : "\\left|".toList ++ r = '\\' :: ("left|".toList ++ r) := rfl
  have hbar := absolute?_leftBar r
  rw [hfront] at hbar ⊢
  rw [replaceAbsolutes, replaceWith, hbar]
  cases beforeRightBar? r <;> rfl

/-- Bars around a line are replaced. -/
theorem replaceAbsolutes_bars (h : s.isLine = true) (r : List Char) :
    replaceAbsolutes ("\\left|".toList ++ (s.render ++ ("\\right|".toList ++ r))) =
      "abs(".toList ++ (s.calls ++ ')' :: replaceAbsolutes r) := by
  have hlength : ("left|".toList ++ (s.render ++ "\\right|".toList)).length =
      s.render.length + 12 := by
    simp
  have hskip := replaceWith_skip absolute? ("left|".toList ++ (s.render ++ "\\right|".toList)) r
  rw [hlength, List.append_assoc, List.append_assoc] at hskip
  rw [replaceAbsolutes_leftBar, beforeRightBar?_of_isLine h]
  dsimp only
  rw [hskip, calls_of_isLine h]
  simp [replaceAbsolutes]

/-- Flat bars become calls. -/
theorem replaceAbsolutes_of_isFlat (h : t.isFlat = true) :
    replaceAbsolutes t.render = t.calls := by
  induction t with
  | nil => rfl
  | char c hc t ih =>
      rw [isFlat] at h
      rw [render, calls, replaceAbsolutes_cons hc, ih h]
  | bars s t _ ih =>
      rw [isFlat, Bool.and_eq_true] at h
      rw [render, calls, replaceAbsolutes_bars h.1, ih h.2]

/-- Of bars that are not flat some are left. -/
theorem backslash_mem_of_not_isFlat (h : t.isFlat = false) :
    '\\' ∈ replaceAbsolutes t.render := by
  induction t with
  | nil => simp [isFlat] at h
  | char c hc t ih =>
      rw [isFlat] at h
      rw [render, replaceAbsolutes_cons hc]
      exact List.mem_cons_of_mem c (ih h)
  | bars s t _ ih =>
      cases hline : s.isLine with
      | true =>
          -- this pair is replaced, and the bars behind it are not flat
          rw [isFlat, hline, Bool.true_and] at h
          rw [render, replaceAbsolutes_bars hline]
          refine List.mem_append_right _ (List.mem_append_right _ ?_)
          exact List.mem_cons_of_mem _ (ih h)
      | false =>
          rw [render, replaceAbsolutes_leftBar]
          cases hbar : beforeRightBar? (s.render ++ ("\\right|".toList ++ t.render)) with
          | none => exact List.mem_cons_self
          | some w =>
              have hw := backslash_mem_of_beforeRightBar? hline hbar
              simp [hw]

/-- **The bars are matched just when none are inside others** and none have a line break between
them; and just then there are none left. -/
theorem replaceAbsolutes_render_iff (t : BarText) :
    (replaceAbsolutes t.render = t.calls ↔ t.isFlat = true) ∧
      ((∀ c ∈ replaceAbsolutes t.render, c ≠ '\\') ↔ t.isFlat = true) := by
  have hleft (h : ∀ c ∈ replaceAbsolutes t.render, c ≠ '\\') : t.isFlat = true := by
    by_contra hflat
    exact h '\\' (backslash_mem_of_not_isFlat (by simpa using hflat)) rfl
  constructor
  · constructor
    · intro h
      apply hleft
      rw [h]
      exact t.ne_backslash_of_mem_calls
    · exact replaceAbsolutes_of_isFlat
  · constructor
    · exact hleft
    · intro h
      rw [replaceAbsolutes_of_isFlat h]
      exact t.ne_backslash_of_mem_calls

/-- The right bar of the inner pair closes the outer one. -/
theorem replaceAbsolutes_nestedBars :
    let one : BarText := .char '1' (by decide) .nil
    let t : BarText := .bars (.char '2' (by decide) (.char '-' (by decide) (.bars one .nil))) .nil
    String.ofList t.render = "\\left|2-\\left|1\\right|\\right|" ∧
      String.ofList t.calls = "abs(2-abs(1))" ∧
      String.ofList (replaceAbsolutes t.render) = "abs(2-\\left|1)\\right|" ∧
      replaceAbsolutes t.render ≠ t.calls := by
  decide +kernel

end BarText

end Reckoner.Canonical
