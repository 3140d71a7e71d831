/-
**The meaning of an expression.**

The exact value of an expression under a scope is partial.  There is none where a symbol has no
value, where a denominator is zero, where zero has a negative exponent, where an exponent is no
integer, and where an elementary function is not defined.  The values are taken in any field of
characteristic zero, in which the elementary functions are any partial functions.

A transformation of expressions is right when it keeps every value that an expression has.  It
may give a value where there was none, as when a factor is cancelled, but no value may change.

Main definitions:

* `Reckoner.Functions` — an interpretation of the elementary functions;
* `Reckoner.FoldsExactly` — functions that have the integer values simplification gives them;
* `Reckoner.Expr.HasValue` — the value of an expression under a scope;
* `Reckoner.Expr.Refines` — every value of one expression is a value of another.

Main results:

* `Reckoner.Expr.HasValue.unique` — there is at most one value;
* `Reckoner.Expr.HasValue.eval_eq` — **a value is what evaluation gives**;
* `Reckoner.Expr.Refines.add`, … , `Reckoner.Expr.Refines.apply` — refinement inside an
  expression.
-/

import Reckoner.Expr.Evaluate
import Reckoner.Proofs.Exact

set_option autoImplicit false

namespace Reckoner

open Arithmetic (ofInt)

/-- An interpretation of the elementary functions by partial functions. -/
abbrev Functions (K : Type) := Elementary → K → Option K

/-- Simplification replaces a function of a number by an integer only if that is its value. -/
def FoldsExactly (κ : Type) [Number κ] {K : Type} [Field K] (I : Functions K) : Prop :=
  ∀ (f : Elementary) (c : κ) (n : ℤ) (v : K),
    Arithmetic.nearInteger? (Arithmetic.apply f c) = some n → I f (valueIn K c) = some v → v = n

namespace Expr

variable {κ : Type} [Number κ] {K : Type} [Field K]

/-- The exact value of an expression under a scope. -/
inductive HasValue (I : Functions K) (σ : Scope K) : Expr κ → K → Prop
  | var {x : String} {v : K} : σ x = some v → HasValue I σ (.var x) v
  | const (c : κ) : HasValue I σ (.const c) (valueIn K c)
  | add {a b : Expr κ} {u v : K} : HasValue I σ a u → HasValue I σ b v →
      HasValue I σ (.add a b) (u + v)
  | sub {a b : Expr κ} {u v : K} : HasValue I σ a u → HasValue I σ b v →
      HasValue I σ (.sub a b) (u - v)
  | mul {a b : Expr κ} {u v : K} : HasValue I σ a u → HasValue I σ b v →
      HasValue I σ (.mul a b) (u * v)
  | div {a b : Expr κ} {u v : K} : HasValue I σ a u → HasValue I σ b v → v ≠ 0 →
      HasValue I σ (.div a b) (u / v)
  | pow {a b : Expr κ} {u : K} {n : ℤ} : HasValue I σ a u → HasValue I σ b n → u ≠ 0 ∨ 0 ≤ n →
      HasValue I σ (.pow a b) (u ^ n)
  | apply {f : Elementary} {a : Expr κ} {u v : K} : HasValue I σ a u → I f u = some v →
      HasValue I σ (.apply f a) v

variable {I : Functions K} {σ : Scope K}

/-! ### Values -/

theorem hasValue_const_iff {c : κ} {v : K} :
    HasValue I σ (.const c) v ↔ v = valueIn K c := by
  constructor
  · intro h
    cases h
    rfl
  · rintro rfl
    exact .const c

theorem hasValue_ofInt_iff [ExactNumber κ] {n : ℤ} {v : K} :
    HasValue I σ (Expr.ofInt n : Expr κ) v ↔ v = n := by
  rw [Expr.ofInt, hasValue_const_iff, valueIn_ofInt]

/-- An integer has its value. -/
theorem HasValue.ofInt [ExactNumber κ] (n : ℤ) : HasValue I σ (Expr.ofInt n : Expr κ) (n : K) :=
  hasValue_ofInt_iff.2 rfl

theorem HasValue.eq_zero [CharZero K] [ExactNumber κ] {e : Expr κ} {v : K}
    (h : HasValue I σ e v) (he : e.isZeroConst = true) : v = 0 := by
  cases h with
  | const c => exact isZero_iff.1 he
  | _ => simp [isZeroConst] at he

theorem HasValue.eq_one [CharZero K] [ExactNumber κ] {e : Expr κ} {v : K}
    (h : HasValue I σ e v) (he : e.isOneConst = true) : v = 1 := by
  cases h with
  | const c => exact isOne_iff.1 he
  | _ => simp [isOneConst] at he

/-- **There is at most one value.** -/
theorem HasValue.unique [CharZero K] {e : Expr κ} {v w : K} (hv : HasValue I σ e v)
    (hw : HasValue I σ e w) : v = w := by
  induction hv generalizing w with
  | var h => cases hw with | var h' => exact Option.some.inj (h.symm.trans h')
  | const c => cases hw; rfl
  | add _ _ iha ihb => cases hw with | add ha hb => rw [iha ha, ihb hb]
  | sub _ _ iha ihb => cases hw with | sub ha hb => rw [iha ha, ihb hb]
  | mul _ _ iha ihb => cases hw with | mul ha hb => rw [iha ha, ihb hb]
  | div _ _ _ iha ihb => cases hw with | div ha hb _ => rw [iha ha, ihb hb]
  | pow _ _ _ iha ihb =>
      cases hw with
      | pow ha hb _ => rw [iha ha, Int.cast_injective (ihb hb)]
  | apply _ hf ih =>
      cases hw with
      | apply ha hf' => rw [ih ha] at hf; exact Option.some.inj (hf.symm.trans hf')

/-- **A value is what evaluation gives**, when the symbols and the elementary functions have
the values of the calculator. -/
theorem HasValue.eval_eq [CharZero K] [ExactNumber κ] {scope : Scope κ} {e : Expr κ} {v : K}
    (symbols : ∀ x v, σ x = some v → ∃ c, scope.lookup x = .ok c ∧ valueIn K c = v)
    (functions : ∀ f (c : κ) v, I f (valueIn K c) = some v →
      valueIn K (Arithmetic.apply f c) = v)
    (h : HasValue I σ e v) : ∃ c, e.eval scope = .ok c ∧ valueIn K c = v := by
  induction h with
  | var hx => exact symbols _ _ hx
  | const c => exact ⟨c, rfl, rfl⟩
  | add _ _ iha ihb =>
      obtain ⟨⟨c, hc, rfl⟩, ⟨d, hd, rfl⟩⟩ := iha, ihb
      exact ⟨c + d, by rw [eval, hc, hd]; rfl, valueIn_add c d⟩
  | sub _ _ iha ihb =>
      obtain ⟨⟨c, hc, rfl⟩, ⟨d, hd, rfl⟩⟩ := iha, ihb
      exact ⟨c - d, by rw [eval, hc, hd]; rfl, valueIn_sub c d⟩
  | mul _ _ iha ihb =>
      obtain ⟨⟨c, hc, rfl⟩, ⟨d, hd, rfl⟩⟩ := iha, ihb
      exact ⟨c * d, by rw [eval, hc, hd]; rfl, valueIn_mul c d⟩
  | div _ _ hv iha ihb =>
      obtain ⟨⟨c, hc, rfl⟩, ⟨d, hd, rfl⟩⟩ := iha, ihb
      exact ⟨c / d, by rw [eval, hc, hd]; rfl, valueIn_div hv⟩
  | pow _ _ hu iha ihb =>
      obtain ⟨⟨c, hc, rfl⟩, ⟨d, hd, hn⟩⟩ := iha, ihb
      exact ⟨Arithmetic.pow c d, by rw [eval, hc, hd]; rfl, valueIn_pow hn hu⟩
  | apply _ hf ih =>
      obtain ⟨c, hc, rfl⟩ := ih
      exact ⟨Arithmetic.apply _ c, by rw [eval, hc]; rfl, functions _ c _ hf⟩

/-! ### Refinement -/

/-- Every value of one expression, under any scope, is a value of another. -/
def Refines (I : Functions K) (e e' : Expr κ) : Prop :=
  ∀ (σ : Scope K) (v : K), HasValue I σ e v → HasValue I σ e' v

namespace Refines

variable {a a' b b' c : Expr κ}

theorem refl (e : Expr κ) : Refines I e e := fun _ _ h => h

theorem trans (h : Refines I a b) (h' : Refines I b c) : Refines I a c :=
  fun σ v hv => h' σ v (h σ v hv)

theorem add (ha : Refines I a a') (hb : Refines I b b') : Refines I (.add a b) (.add a' b') := by
  intro σ v h
  cases h with
  | add hu hv => exact .add (ha _ _ hu) (hb _ _ hv)

theorem sub (ha : Refines I a a') (hb : Refines I b b') : Refines I (.sub a b) (.sub a' b') := by
  intro σ v h
  cases h with
  | sub hu hv => exact .sub (ha _ _ hu) (hb _ _ hv)

theorem mul (ha : Refines I a a') (hb : Refines I b b') : Refines I (.mul a b) (.mul a' b') := by
  intro σ v h
  cases h with
  | mul hu hv => exact .mul (ha _ _ hu) (hb _ _ hv)

theorem div (ha : Refines I a a') (hb : Refines I b b') : Refines I (.div a b) (.div a' b') := by
  intro σ v h
  cases h with
  | div hu hv hne => exact .div (ha _ _ hu) (hb _ _ hv) hne

theorem pow (ha : Refines I a a') (hb : Refines I b b') : Refines I (.pow a b) (.pow a' b') := by
  intro σ v h
  cases h with
  | pow hu hn hne => exact .pow (ha _ _ hu) (hb _ _ hn) hne

theorem apply (f : Elementary) (ha : Refines I a a') :
    Refines I (.apply f a) (.apply f a') := by
  intro σ v h
  cases h with
  | apply hu hf => exact .apply (ha _ _ hu) hf

end Refines

end Expr

end Reckoner
