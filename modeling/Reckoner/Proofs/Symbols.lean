/-
**Simplification introduces no symbol.**

Every variable of a simplified expression occurs in the expression itself.  The statement is
generic in the numbers, and it is proved for any property of names: an expression all of whose
names have a property is simplified to such an expression.  With occurrence in a given expression
as the property this is the statement above, and with being an identifier it is what makes the
texts of atoms unambiguous throughout simplification.

Main definitions:

* `Reckoner.Expr.OnlyNames` — all variables of an expression have a property;
* `Reckoner.Expr.KeepsNames` — a transformation under which they keep it.

Main results:

* `Reckoner.Expr.onlyNames_collected?` — like terms are collected without new names;
* `Reckoner.Expr.simplifyWith_keepsNames` — one pass keeps the names, if `again` does;
* `Reckoner.Expr.onlyNames_simplify` — **simplification introduces no symbol**.
-/

import Reckoner.Proofs.Families

set_option autoImplicit false

namespace Reckoner

namespace Expr

variable {κ : Type} {P : String → Prop} {a b e : Expr κ}

/-- All variables of an expression have a property. -/
def OnlyNames (P : String → Prop) (e : Expr κ) : Prop := ∀ x, e.mentions x = true → P x

/-! ### Names by constructor -/

section Constructors

attribute [local simp] OnlyNames mentions

@[simp] theorem onlyNames_var {x : String} : OnlyNames P (.var x : Expr κ) ↔ P x := by
  simp

@[simp] theorem onlyNames_const (c : κ) : OnlyNames P (.const c) := by
  simp

@[simp] theorem onlyNames_add : OnlyNames P (.add a b) ↔ OnlyNames P a ∧ OnlyNames P b := by
  simp [or_imp, forall_and]

@[simp] theorem onlyNames_sub : OnlyNames P (.sub a b) ↔ OnlyNames P a ∧ OnlyNames P b := by
  simp [or_imp, forall_and]

@[simp] theorem onlyNames_mul : OnlyNames P (.mul a b) ↔ OnlyNames P a ∧ OnlyNames P b := by
  simp [or_imp, forall_and]

@[simp] theorem onlyNames_div : OnlyNames P (.div a b) ↔ OnlyNames P a ∧ OnlyNames P b := by
  simp [or_imp, forall_and]

@[simp] theorem onlyNames_pow : OnlyNames P (.pow a b) ↔ OnlyNames P a ∧ OnlyNames P b := by
  simp [or_imp, forall_and]

@[simp] theorem onlyNames_apply {f : Elementary} :
    OnlyNames P (.apply f a) ↔ OnlyNames P a := by
  simp

end Constructors

variable [Number κ]

@[simp] theorem onlyNames_ofInt (n : ℤ) : OnlyNames P (ofInt n : Expr κ) := onlyNames_const _

@[simp] theorem onlyNames_negated : OnlyNames P e.negated ↔ OnlyNames P e := by
  simp [negated]

/-! ### Like terms and products -/

/-- The expressions whose names have a property are a family, with themselves as exponents. -/
theorem onlyNames_family : Family (κ := κ) (OnlyNames P) (OnlyNames P) where
  const := onlyNames_const
  add := onlyNames_add
  sub := onlyNames_sub
  mul := onlyNames_mul
  pow := onlyNames_pow
  ofInt _ := onlyNames_ofInt _

/-- Like terms are collected without new names. -/
theorem onlyNames_collected? {e' : Expr κ} (h : OnlyNames P e) (he : e.collected? = some e') :
    OnlyNames P e' :=
  onlyNames_family.collected? h he

theorem onlyNames_baseAndExponent (h : OnlyNames P e) :
    OnlyNames P e.baseAndExponent.1 ∧ OnlyNames P e.baseAndExponent.2 :=
  onlyNames_family.baseAndExponent h

/-- A transformation under which all names keep a property. -/
def KeepsNames (P : String → Prop) (again : Expr κ → Expr κ) : Prop :=
  ∀ e, OnlyNames P e → OnlyNames P (again e)

variable {again : Expr κ → Expr κ}

theorem onlyNames_simplifyProduct (hagain : KeepsNames P again) (h : OnlyNames P e) :
    OnlyNames P (simplifyProduct again e) :=
  onlyNames_family.simplifyProduct (fun _ _ ha hb => hagain _ (onlyNames_add.2 ⟨ha, hb⟩)) h

/-! ### Whole expressions -/

/-- A rule introduces no name. -/
theorem Rule.onlyNames (hagain : KeepsNames P again) {e e' : Expr κ} (r : Rule again e e')
    (h : OnlyNames P e) : OnlyNames P e' := by
  cases r with
  | keep => exact h
  | collect he => exact onlyNames_collected? h he
  | foldAdd | foldSub | foldMul | foldDiv | foldPow => exact onlyNames_const _
  | subSelf | zeroMul | mulZero | zeroDiv | divSelf | powZero | onePow | foldApply =>
      exact onlyNames_ofInt _
  | zeroAdd => exact (onlyNames_add.1 h).2
  | addZero => exact (onlyNames_add.1 h).1
  | subZero => exact (onlyNames_sub.1 h).1
  | zeroSub => exact hagain _ (onlyNames_negated.2 (onlyNames_sub.1 h).2)
  | oneMul => exact (onlyNames_mul.1 h).2
  | mulOne => exact (onlyNames_mul.1 h).1
  | product => exact onlyNames_simplifyProduct hagain h
  | divOne => exact (onlyNames_div.1 h).1
  | scale =>
      exact hagain _ (onlyNames_mul.2
        ⟨onlyNames_const _, (onlyNames_mul.1 (onlyNames_div.1 h).1).2⟩)
  | divConst => exact hagain _ (onlyNames_mul.2 ⟨onlyNames_const _, (onlyNames_div.1 h).1⟩)
  | cancel =>
      have ha := onlyNames_baseAndExponent (onlyNames_div.1 h).1
      have hb := onlyNames_baseAndExponent (onlyNames_div.1 h).2
      exact hagain _ (onlyNames_pow.2 ⟨ha.1, hagain _ (onlyNames_sub.2 ⟨ha.2, hb.2⟩)⟩)
  | powOne => exact (onlyNames_pow.1 h).1
  | powPow =>
      obtain ⟨ha, hm⟩ := onlyNames_pow.1 (onlyNames_pow.1 h).1
      exact hagain _ (onlyNames_pow.2
        ⟨ha, hagain _ (onlyNames_mul.2 ⟨hm, onlyNames_const _⟩)⟩)

/-- One pass keeps the names, if `again` does. -/
theorem simplifyWith_keepsNames (hagain : KeepsNames P again) :
    KeepsNames P (simplifyWith again) := by
  intro e h
  induction e with
  | var x => exact h
  | const c => exact h
  | add a b iha ihb =>
      rw [onlyNames_add] at h
      exact (simplifyAdd_rule _ _).onlyNames hagain (onlyNames_add.2 ⟨iha h.1, ihb h.2⟩)
  | sub a b iha ihb =>
      rw [onlyNames_sub] at h
      exact (simplifySub_rule _ _).onlyNames hagain (onlyNames_sub.2 ⟨iha h.1, ihb h.2⟩)
  | mul a b iha ihb =>
      rw [onlyNames_mul] at h
      exact (simplifyMul_rule _ _).onlyNames hagain (onlyNames_mul.2 ⟨iha h.1, ihb h.2⟩)
  | div a b iha ihb =>
      rw [onlyNames_div] at h
      exact (simplifyDiv_rule _ _).onlyNames hagain (onlyNames_div.2 ⟨iha h.1, ihb h.2⟩)
  | pow a b iha ihb =>
      rw [onlyNames_pow] at h
      exact (simplifyPow_rule _ _).onlyNames hagain (onlyNames_pow.2 ⟨iha h.1, ihb h.2⟩)
  | apply f a ih =>
      rw [onlyNames_apply] at h
      exact (simplifyApply_rule f _).onlyNames hagain (onlyNames_apply.2 (ih h))

theorem simplifyWithin_keepsNames (n : ℕ) : KeepsNames P (simplifyWithin (κ := κ) n) := by
  induction n with
  | zero => exact simplifyWith_keepsNames fun _ h => h
  | succ n ih => exact simplifyWith_keepsNames ih

/-- **Simplification introduces no symbol.** -/
theorem onlyNames_simplify (h : OnlyNames P e) : OnlyNames P e.simplify :=
  simplifyWithin_keepsNames e.weight e h

end Expr

end Reckoner
