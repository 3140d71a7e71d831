/-
**What a collection of like terms remembers.**

A collection knows the atoms of its monomials by their texts, and falls back on a variable of the
same text for an atom it does not know.  This module shows that the fall-back is never taken:
every key of every monomial that is collected has been remembered, under the text of an atom that
occurs as a factor of some term.

The statements are for any property of atoms, so that they serve the occurrence of symbols, the
values of atoms and their degrees alike.

Main definitions:

* `Reckoner.Collection.Knows` — every key of a monomial is remembered, with a positive exponent;
* `Reckoner.Collection.Over` — a collection all of whose atoms have a property, and that knows all
  its monomials;
* `Reckoner.Expr.AtomsOf` — every factor of a term that is no number is a power of an atom with a
  property.

Main results:

* `Reckoner.Collection.addFactors_over` — one factor after another keeps this;
* `Reckoner.Collection.ofTerms_over` — **a collection of terms knows all its monomials**.
-/

import Mathlib.Tactic
import Reckoner.Expr.Monomial

set_option autoImplicit false

namespace Reckoner

variable {κ : Type} [Number κ]

namespace Expr

/-- Every factor of a product that is no number is a power of an atom with a property. -/
def AtomsOf (Q : Expr κ → Prop) (es : List (Expr κ)) : Prop :=
  ∀ e ∈ es, e.isConst = false → Q e.atomPower.1

omit [Number κ] in
theorem isConst_eq_false {e : Expr κ} (h : ∀ c, e ≠ .const c) : e.isConst = false := by
  cases e with
  | const c => exact absurd rfl (h c)
  | _ => rfl

omit [Number κ] in
theorem exists_const_of_isConst {e : Expr κ} (h : e.isConst = true) : ∃ c, e = .const c := by
  cases e with
  | const c => exact ⟨c, rfl⟩
  | _ => simp [isConst] at h

/-- The exponent of a factor is positive. -/
theorem atomPower_pos (e : Expr κ) : 0 < e.atomPower.2 := by
  unfold atomPower
  split
  · split
    · split
      · rename_i h
        have : 0 < maxExponent := by decide
        simp only [Bool.and_eq_true, decide_eq_true_eq] at h
        exact lt_min h.1 this
      · exact Int.one_pos
    · exact Int.one_pos
  · exact Int.one_pos

end Expr

namespace Collection

variable {Q : Expr κ → Prop} {s : Collection κ} {m : Monomial}

/-! ### Remembered atoms -/

/-- Every key of a monomial is remembered, and has a positive exponent. -/
def Knows (s : Collection κ) (m : Monomial) : Prop :=
  ∀ p ∈ m, 0 < p.2 ∧ ∃ a, s.atoms.lookup p.1 = some a

/-- A collection whose atoms have a property and are remembered under their own texts, and that
knows all its monomials. -/
structure Over (Q : Expr κ → Prop) (s : Collection κ) : Prop where
  /-- An atom is remembered under its text. -/
  atoms : ∀ key a, s.atoms.lookup key = some a → a.text = key ∧ Q a
  /-- All monomials are known. -/
  sums : ∀ t ∈ s.sums, s.Knows t.1

theorem over_empty : Over Q (empty : Collection κ) := by
  constructor
  · simp [empty]
  · simp [empty]

omit [Number κ] in
@[simp] theorem remember_sums (s : Collection κ) (key : String) (a : Expr κ) :
    (s.remember key a).sums = s.sums := by
  unfold remember
  split <;> rfl

omit [Number κ] in
/-- Nothing that is remembered is forgotten. -/
theorem lookup_remember {key k : String} {a b : Expr κ} (h : s.atoms.lookup k = some b) :
    (s.remember key a).atoms.lookup k = some b := by
  unfold remember
  split
  · exact h
  · simp [List.lookup_append, h]

omit [Number κ] in
/-- What is to be remembered is remembered, if not under this atom. -/
theorem exists_lookup_remember (s : Collection κ) (key : String) (a : Expr κ) :
    ∃ b, (s.remember key a).atoms.lookup key = some b := by
  unfold remember
  split
  · rename_i h
    exact Option.isSome_iff_exists.1 h
  · rename_i h
    refine ⟨a, ?_⟩
    simp [List.lookup_append, Option.not_isSome_iff_eq_none.1 h]

omit [Number κ] in
/-- Whatever is remembered afterwards was known before or is the new atom. -/
theorem lookup_remember_cases {key k : String} {a b : Expr κ}
    (h : (s.remember key a).atoms.lookup k = some b) :
    s.atoms.lookup k = some b ∨ k = key ∧ b = a := by
  unfold remember at h
  split at h
  · exact .inl h
  · cases hs : s.atoms.lookup k with
    | some c => exact .inl (by simpa [List.lookup_append, hs] using h)
    | none =>
        simp only [List.lookup_append, hs, Option.none_or, List.lookup_cons, List.lookup_nil] at h
        split at h
        · rename_i hk
          exact .inr ⟨by simpa using hk, (Option.some.inj h).symm⟩
        · simp at h

omit [Number κ] in
theorem Knows.remember (h : s.Knows m) (key : String) (a : Expr κ) :
    (s.remember key a).Knows m := by
  intro p hp
  obtain ⟨hpos, b, hb⟩ := h p hp
  exact ⟨hpos, b, lookup_remember hb⟩

theorem Over.remember (h : Over Q s) {a : Expr κ} (ha : Q a) : Over Q (s.remember a.text a) := by
  constructor
  · intro k b hb
    rcases lookup_remember_cases hb with hb | ⟨rfl, rfl⟩
    · exact h.atoms k b hb
    · exact ⟨rfl, ha⟩
  · intro t ht
    rw [remember_sums] at ht
    exact (h.sums t ht).remember _ _

/-! ### Factors of a term -/

theorem mem_times {key : String} {n : ℤ} {p : String × ℤ} (h : p ∈ m.times key n) :
    p ∈ m ∨ p.1 = key ∧ (p.2 = n ∨ ∃ k, (key, k) ∈ m ∧ p.2 = k + n) := by
  induction m with
  | nil => simp_all [Monomial.times]
  | cons q m ih =>
      obtain ⟨k, i⟩ := q
      simp only [Monomial.times] at h
      split at h
      · rename_i hk
        subst hk
        rcases List.mem_cons.1 h with rfl | h
        · exact .inr ⟨rfl, .inr ⟨i, List.mem_cons_self, rfl⟩⟩
        · exact .inl (List.mem_cons_of_mem _ h)
      · split at h
        · rcases List.mem_cons.1 h with rfl | h
          · exact .inr ⟨rfl, .inl rfl⟩
          · exact .inl h
        · rcases List.mem_cons.1 h with rfl | h
          · exact .inl List.mem_cons_self
          · rcases ih h with h | ⟨hp, h | ⟨j, hj, h⟩⟩
            · exact .inl (List.mem_cons_of_mem _ h)
            · exact .inr ⟨hp, .inl h⟩
            · exact .inr ⟨hp, .inr ⟨j, List.mem_cons_of_mem _ hj, h⟩⟩

omit [Number κ] in
theorem Knows.times {key : String} {n : ℤ} (h : s.Knows m) (hn : 0 < n)
    (hkey : ∃ a, s.atoms.lookup key = some a) : s.Knows (m.times key n) := by
  intro p hp
  rcases mem_times hp with hp | ⟨hk, hp | ⟨j, hj, hp⟩⟩
  · exact h p hp
  · exact ⟨hp ▸ hn, hk ▸ hkey⟩
  · have := (h _ hj).1
    exact ⟨by omega, hk ▸ hkey⟩

@[simp] theorem addFactors_const (c d : κ) (es : List (Expr κ)) :
    addFactors s c m (.const d :: es) = addFactors s (c * d) m es := rfl

theorem addFactors_cons {e : Expr κ} (h : e.isConst = false) (c : κ) (es : List (Expr κ)) :
    addFactors s c m (e :: es) =
      addFactors (s.remember e.atomPower.1.text e.atomPower.1) c
        (m.times e.atomPower.1.text e.atomPower.2) es := by
  cases e with
  | const d => simp [Expr.isConst] at h
  | _ => rfl

/-- The factors of a term do not change the sum. -/
theorem addFactors_sums (s : Collection κ) (c : κ) (m : Monomial) (es : List (Expr κ)) :
    (addFactors s c m es).1.sums = s.sums := by
  induction es generalizing s c m with
  | nil => rfl
  | cons e es ih =>
      cases hc : e.isConst with
      | true =>
          obtain ⟨d, rfl⟩ := Expr.exists_const_of_isConst hc
          exact ih s _ m
      | false => rw [addFactors_cons hc, ih, remember_sums]

theorem addTerm_sums (s : Collection κ) (e : Expr κ) :
    (s.addTerm e).sums =
      accumulate (addFactors s Arithmetic.one [] e.factors).2.2
        (addFactors s Arithmetic.one [] e.factors).2.1 s.sums := by
  rw [← addFactors_sums s Arithmetic.one [] e.factors]
  rfl

/-- **One factor after another**: all atoms keep the property, and the monomial is known. -/
theorem addFactors_over {es : List (Expr κ)} {c : κ} (hs : Over Q s) (hm : s.Knows m)
    (hes : Expr.AtomsOf Q es) :
    Over Q (addFactors s c m es).1 ∧
      (addFactors s c m es).1.Knows (addFactors s c m es).2.2 := by
  induction es generalizing s c m with
  | nil => exact ⟨hs, hm⟩
  | cons e es ih =>
      have hes' : Expr.AtomsOf Q es := fun a ha => hes a (List.mem_cons_of_mem _ ha)
      cases hc : e.isConst with
      | true =>
          obtain ⟨d, rfl⟩ := Expr.exists_const_of_isConst hc
          exact ih hs hm hes'
      | false =>
          rw [addFactors_cons hc]
          exact ih (hs.remember (hes e List.mem_cons_self hc))
            ((hm.remember _ e.atomPower.1).times e.atomPower_pos (exists_lookup_remember ..)) hes'

/-! ### Terms of a sum -/

theorem mem_accumulate {c : κ} {l : List (Monomial × κ)} {t : Monomial × κ}
    (h : t ∈ accumulate m c l) : t.1 = m ∨ t ∈ l := by
  induction l with
  | nil => simp_all [accumulate]
  | cons u l ih =>
      obtain ⟨k, d⟩ := u
      simp only [accumulate] at h
      split at h
      · rename_i hk
        rcases List.mem_cons.1 h with rfl | h
        · exact .inl hk
        · exact .inr (List.mem_cons_of_mem _ h)
      · rcases List.mem_cons.1 h with rfl | h
        · exact .inr List.mem_cons_self
        · exact (ih h).imp_right (List.mem_cons_of_mem _)

theorem addTerm_over {e : Expr κ} (hs : Over Q s) (he : Expr.AtomsOf Q e.factors) :
    Over Q (s.addTerm e) := by
  obtain ⟨hover, hknows⟩ :=
    addFactors_over (c := Arithmetic.one) (m := []) hs (by intro p hp; simp at hp) he
  constructor
  · exact hover.atoms
  · intro t ht
    rw [addTerm_sums] at ht
    rcases mem_accumulate ht with h | h
    · exact h ▸ hknows
    · exact hover.sums t (by rwa [addFactors_sums])

/-- **A collection of terms knows all its monomials**, and its atoms have every property that
the atoms of the terms have. -/
theorem ofTerms_over {es : List (Expr κ)} (h : ∀ e ∈ es, Expr.AtomsOf Q e.factors) :
    Over Q (ofTerms es) := by
  have key : ∀ (es : List (Expr κ)) (s : Collection κ), Over Q s →
      (∀ e ∈ es, Expr.AtomsOf Q e.factors) → Over Q (es.foldl addTerm s) := by
    intro es
    induction es with
    | nil => exact fun s hs _ => hs
    | cons e es ih =>
        intro s hs h
        exact ih _ (addTerm_over hs (h e List.mem_cons_self))
          fun a ha => h a (List.mem_cons_of_mem _ ha)
  exact key es empty over_empty h

/-- The terms of a collection that are written down are among its sums. -/
theorem mem_sums_of_mem_ordered {t : Monomial × κ} (h : t ∈ s.ordered) : t ∈ s.sums :=
  List.mem_of_mem_filter (List.mem_mergeSort.1 h)

/-- The atom of a known key is remembered under it. -/
theorem Over.atom (hs : Over Q s) (hm : s.Knows m) {p : String × ℤ} (hp : p ∈ m) :
    (s.atom p.1).text = p.1 ∧ Q (s.atom p.1) := by
  obtain ⟨-, a, ha⟩ := hm p hp
  rw [Collection.atom, ha]
  exact hs.atoms _ _ ha

end Collection

end Reckoner
