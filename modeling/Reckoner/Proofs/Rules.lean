/-
**The rules of simplification, one at a time.**

An operation with simplified operands is simplified by the first rule that applies.  For what
follows only the rules themselves matter and not the order in which they are tried: every result
of an operation is the result of one rule.  A property of simplification is therefore proved
rule by rule, and the tests that precede a rule appear only as far as the rule depends on them.

Main definitions:

* `Reckoner.Expr.Rule` — one rule, at the root of an expression.

Main results:

* `Reckoner.Expr.simplifyAdd_rule`, … , `Reckoner.Expr.simplifyApply_rule` — **the result of an
  operation is the result of a rule**;
* `Reckoner.Expr.mergeFactors_cons` — the factors of a product that are no numbers.
-/

import Mathlib.Tactic
import Reckoner.Expr.Simplify
import Reckoner.Proofs.LikeTerms

set_option autoImplicit false

namespace Reckoner.Expr

variable {κ : Type} [Number κ]

open Arithmetic (isZero isOne integer? nearInteger? one)

/-- One rule of simplification, at the root of an expression.  The parameter simplifies the trees
that a rule rebuilds. -/
inductive Rule (again : Expr κ → Expr κ) : Expr κ → Expr κ → Prop
  | keep (e : Expr κ) : Rule again e e
  | collect {e e' : Expr κ} : e.collected? = some e' → Rule again e e'
  | foldAdd (c d : κ) : Rule again (.add (.const c) (.const d)) (.const (c + d))
  | zeroAdd {a b : Expr κ} : a.isZeroConst = true → Rule again (.add a b) b
  | addZero {a b : Expr κ} : b.isZeroConst = true → Rule again (.add a b) a
  | foldSub (c d : κ) : Rule again (.sub (.const c) (.const d)) (.const (c - d))
  | subZero {a b : Expr κ} : b.isZeroConst = true → Rule again (.sub a b) a
  | subSelf {a b : Expr κ} : a.same b = true → Rule again (.sub a b) (ofInt 0)
  | zeroSub {a b : Expr κ} : a.isZeroConst = true → Rule again (.sub a b) (again b.negated)
  | foldMul (c d : κ) : Rule again (.mul (.const c) (.const d)) (.const (c * d))
  | zeroMul {a b : Expr κ} : a.isZeroConst = true → Rule again (.mul a b) (ofInt 0)
  | mulZero {a b : Expr κ} : b.isZeroConst = true → Rule again (.mul a b) (ofInt 0)
  | oneMul {a b : Expr κ} : a.isOneConst = true → Rule again (.mul a b) b
  | mulOne {a b : Expr κ} : b.isOneConst = true → Rule again (.mul a b) a
  | product (a b : Expr κ) : Rule again (.mul a b) (simplifyProduct again (.mul a b))
  | foldDiv {c d : κ} : isZero d = false → Rule again (.div (.const c) (.const d)) (.const (c / d))
  | zeroDiv {a b : Expr κ} : a.isZeroConst = true → Rule again (.div a b) (ofInt 0)
  | divOne {a b : Expr κ} : b.isOneConst = true → Rule again (.div a b) a
  | divSelf {a b : Expr κ} : a.same b = true → Rule again (.div a b) (ofInt 1)
  | scale {c d : κ} {a : Expr κ} : isZero d = false →
      Rule again (.div (.mul (.const c) a) (.const d)) (again (.mul (.const (c / d)) a))
  | divConst {a : Expr κ} {d : κ} : isZero d = false →
      Rule again (.div a (.const d)) (again (.mul (.const (one / d)) a))
  | cancel {a b : Expr κ} : a.baseAndExponent.1.same b.baseAndExponent.1 = true →
      a.baseAndExponent.1.isConst = false →
      Rule again (.div a b)
        (again (.pow a.baseAndExponent.1
          (again (.sub a.baseAndExponent.2 b.baseAndExponent.2))))
  | foldPow (c d : κ) : Rule again (.pow (.const c) (.const d)) (.const (Arithmetic.pow c d))
  | powZero {a b : Expr κ} : b.isZeroConst = true → Rule again (.pow a b) (ofInt 1)
  | powOne {a b : Expr κ} : b.isOneConst = true → Rule again (.pow a b) a
  | onePow {a b : Expr κ} : a.isOneConst = true → Rule again (.pow a b) (ofInt 1)
  | powPow {a m : Expr κ} {c : κ} : (integer? c).isSome = true →
      Rule again (.pow (.pow a m) (.const c)) (again (.pow a (again (.mul m (.const c)))))
  | foldApply {f : Elementary} {c : κ} {n : ℤ} :
      nearInteger? (Arithmetic.apply f c) = some n → Rule again (.apply f (.const c)) (ofInt n)

variable {again : Expr κ → Expr κ}

/-! ### Every result comes from a rule -/

/-- Like terms are collected, or the expression stays. -/
theorem collected?_rule (e : Expr κ) : Rule again e (e.collected?.getD e) := by
  cases h : e.collected? with
  | none => exact .keep e
  | some e' => exact .collect h

theorem simplifyAdd_rule (a b : Expr κ) : Rule again (.add a b) (simplifyAdd a b) := by
  unfold simplifyAdd
  split
  · exact .foldAdd _ _
  · split
    · exact .zeroAdd ‹_›
    · split
      · exact .addZero ‹_›
      · exact collected?_rule _

theorem simplifySub_rule (a b : Expr κ) : Rule again (.sub a b) (simplifySub again a b) := by
  unfold simplifySub
  split
  · exact .foldSub _ _
  · split
    · exact .subZero ‹_›
    · split
      · exact .subSelf ‹_›
      · split
        · exact .zeroSub ‹_›
        · exact collected?_rule _

theorem simplifyMul_rule (a b : Expr κ) : Rule again (.mul a b) (simplifyMul again a b) := by
  unfold simplifyMul
  split
  · exact .foldMul _ _
  · split
    · rename_i h
      exact (Bool.or_eq_true_iff.1 h).elim .zeroMul .mulZero
    · split
      · exact .oneMul ‹_›
      · split
        · exact .mulOne ‹_›
        · split
          · exact collected?_rule _
          · exact .product _ _

theorem simplifyQuotientOfPowers_rule (a b : Expr κ) :
    Rule again (.div a b) (simplifyQuotientOfPowers again a b) := by
  unfold simplifyQuotientOfPowers
  dsimp only
  split
  · rename_i h
    simp only [Bool.and_eq_true, Bool.not_eq_true'] at h
    exact .cancel h.1 h.2
  · exact .keep _

theorem simplifyDiv_rule (a b : Expr κ) : Rule again (.div a b) (simplifyDiv again a b) := by
  unfold simplifyDiv
  split
  · split
    · exact .keep _
    · exact .foldDiv (Bool.eq_false_iff.2 ‹_›)
  · split
    · exact .zeroDiv ‹_›
    · split
      · exact .divOne ‹_›
      · split
        · exact .divSelf ‹_›
        · -- what is divided decides how a number divides it
          split
          · split
            · exact simplifyQuotientOfPowers_rule _ _
            · exact .scale (Bool.eq_false_iff.2 ‹_›)
          · split
            · exact simplifyQuotientOfPowers_rule _ _
            · exact .keep _
          · split
            · exact simplifyQuotientOfPowers_rule _ _
            · exact .divConst (Bool.eq_false_iff.2 ‹_›)
          · split
            · exact simplifyQuotientOfPowers_rule _ _
            · exact .divConst (Bool.eq_false_iff.2 ‹_›)
          · exact simplifyQuotientOfPowers_rule _ _

theorem simplifyPow_rule (a b : Expr κ) : Rule again (.pow a b) (simplifyPow again a b) := by
  unfold simplifyPow
  split
  · exact .foldPow _ _
  · split
    · exact .powZero ‹_›
    · split
      · exact .powOne ‹_›
      · split
        · exact .onePow ‹_›
        · split
          · split
            · exact .powPow ‹_›
            · exact .keep _
          · exact .keep _

theorem simplifyApply_rule (f : Elementary) (a : Expr κ) :
    Rule again (.apply f a) (simplifyApply f a) := by
  unfold simplifyApply
  split
  · split
    · exact .foldApply ‹_›
    · exact .keep _
  · exact .keep _

/-! ### Factors of a product -/

@[simp] theorem mergeFactors_const (c d : κ) (ps : List (Expr κ × Expr κ))
    (es : List (Expr κ)) :
    mergeFactors again c ps (.const d :: es) = mergeFactors again (c * d) ps es := rfl

theorem mergeFactors_cons {e : Expr κ} (h : e.isConst = false) (c : κ)
    (ps : List (Expr κ × Expr κ)) (es : List (Expr κ)) :
    mergeFactors again c ps (e :: es) =
      mergeFactors again c
        (mergePower again e.baseAndExponent.1 e.baseAndExponent.2 ps) es := by
  cases e with
  | const d => simp [isConst] at h
  | _ => rfl

end Reckoner.Expr
