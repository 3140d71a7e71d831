/-
**Simplification without a bound.**

A function is described by a step, which computes its value at an expression from its values at
others, and by the list of the expressions that the step asks for.  The list may depend on earlier
answers: the power of a base with a simplified exponent is on the list of a quotient of powers.
That such a recursion ends can therefore only be shown together with what its answers are.  If the
calls are on smaller expressions as long as the answers so far are good, and good answers to the
calls make a good answer, then the recursion ends and all answers are good.

For simplification an answer is good if it is no larger than the question.  The calls are on
operands, and on trees that a rule rebuilds from simplified operands; the former have fewer nodes
outside of exponents, and the latter are lower than the operation.

The definition of simplification bounds the number of trees that are rebuilt within rebuilt trees.
Any bound that is large enough gives the same result.

Main definitions:

* `Reckoner.Expr.Recurses` — a recursion whose calls decrease;
* `Reckoner.Expr.Descends` — a step whose calls decrease as long as the answers are good;
* `Reckoner.Expr.recursion` — the function that a step describes;
* `Reckoner.Expr.simplificationMeasure` — the measure of simplification;
* `Reckoner.Expr.unboundedSimplify` — simplification, without a bound.

Main results:

* `Reckoner.Expr.Descends.recurses` — a step whose calls decrease describes a function;
* `Reckoner.Expr.Recurses.unique` — there is only one function that it describes;
* `Reckoner.Expr.recurses_simplify`, `Reckoner.Expr.eq_unboundedSimplify` — **simplification ends**,
  and is what its rules describe;
* `Reckoner.Expr.noLarger_unboundedSimplify` — simplification makes nothing larger;
* `Reckoner.Expr.exists_simplifyWithin_eq` — a bound is not felt if it is large enough.
-/

import Reckoner.Proofs.RankedRules

set_option autoImplicit false

namespace Reckoner

namespace Expr

/-! ### Recursion along a measure -/

section Recursion

variable {κ β : Type} {α : Type*} [LT α]
variable {measure : Expr κ → α} {step : (Expr κ → β) → Expr κ → β}
variable {calls : (Expr κ → β) → Expr κ → List (Expr κ)} {Good : Expr κ → β → Prop}
variable {F G : Expr κ → β} {e : Expr κ}

/-- A function is computed at an expression by a recursion that ends: all calls are on smaller
expressions, and nothing else is called. -/
structure Recurses (F : Expr κ → β) (step : (Expr κ → β) → Expr κ → β)
    (calls : (Expr κ → β) → Expr κ → List (Expr κ)) (measure : Expr κ → α) (e : Expr κ) :
    Prop where
  /-- Expressions do not get smaller without end. -/
  wellFounded : WellFounded fun f g : Expr κ => measure f < measure g
  /-- Every call is on a smaller expression. -/
  decrease : ∀ f ∈ calls F e, measure f < measure e
  /-- The function is computed by the step. -/
  equation : step F e = F e
  /-- The step depends on the listed calls only. -/
  complete : ∀ G, (∀ f ∈ calls F e, F f = G f) → step F e = step G e

/-- There is only one function that such a recursion describes. -/
theorem Recurses.unique (hF : ∀ e, Recurses F step calls measure e) (hG : ∀ e, step G e = G e)
    (e : Expr κ) : F e = G e := by
  induction e using (hF e).wellFounded.induction with
  | _ e ih =>
      have he := hF e
      rw [← he.equation, ← hG e]
      exact he.complete G fun f hf => ih f (he.decrease f hf)

variable [WellFoundedLT α] [Inhabited β]

/-- The function that a step computes from its values at smaller expressions.  There is no answer to
a call on any other expression. -/
noncomputable def recursion (measure : Expr κ → α) (step : (Expr κ → β) → Expr κ → β) :
    Expr κ → β :=
  (InvImage.wf measure wellFounded_lt).fix fun e below =>
    open Classical in step (fun f => if h : measure f < measure e then below f h else default) e

/-- A step whose calls are on smaller expressions, as long as the answers to these calls are good;
and then its own answer is good. -/
structure Descends (measure : Expr κ → α) (step : (Expr κ → β) → Expr κ → β)
    (calls : (Expr κ → β) → Expr κ → List (Expr κ)) (Good : Expr κ → β → Prop) : Prop where
  /-- Calls are on smaller expressions. -/
  decrease : ∀ F e, (∀ f, measure f < measure e → Good f (F f)) →
    ∀ f ∈ calls F e, measure f < measure e
  /-- The answer is good. -/
  good : ∀ F e, (∀ f, measure f < measure e → Good f (F f)) → Good e (step F e)
  /-- The step depends on the listed calls only. -/
  complete : ∀ F G e, (∀ f ∈ calls F e, F f = G f) → step F e = step G e

namespace Descends

variable (h : Descends measure step calls Good)
include h

open Classical in
theorem good_recursion (e : Expr κ) : Good e (recursion measure step e) := by
  induction e using (InvImage.wf measure wellFounded_lt).induction with
  | _ e ih =>
      rw [recursion, WellFounded.fix_eq]
      refine h.good _ e fun f hf => ?_
      rw [dif_pos hf]
      exact ih f hf

/-- **The recursion ends**: no call is left without an answer. -/
theorem recurses (e : Expr κ) :
    Recurses (recursion measure step) step calls measure e where
  wellFounded := InvImage.wf measure wellFounded_lt
  decrease := h.decrease _ e fun f _ => h.good_recursion f
  equation := by
    classical
    have hdecrease := h.decrease (recursion measure step) e fun f _ => h.good_recursion f
    conv_rhs => rw [recursion, WellFounded.fix_eq]
    refine h.complete _ _ e fun f hf => ?_
    rw [dif_pos (hdecrease f hf)]
    rfl
  complete G hG := h.complete _ G e hG

end Descends

end Recursion

/-! ### Simplification -/

variable {κ : Type} {a b e f u : Expr κ}

/-- The measure of simplification: the height of an expression, and among expressions of one height
the size outside of exponents. -/
noncomputable def simplificationMeasure (e : Expr κ) : (ℕ ×ₗ Bag) ×ₗ ℕ :=
  toLex (e.height, e.outerSize)

theorem simplificationMeasure_lt (h : f.height < e.height) :
    f.simplificationMeasure < e.simplificationMeasure :=
  Prod.Lex.toLex_lt_toLex.2 (.inl h)

/-- Operands are smaller than the operation. -/
theorem simplificationMeasure_operand (h : a ∈ e.operands) :
    a.simplificationMeasure < e.simplificationMeasure := by
  rcases operand_within h with hdepth | ⟨hrank, hsize⟩
  · exact simplificationMeasure_lt (height_lt_of_depth_lt hdepth)
  · rcases (height_le (depth_operand h) hrank.1).lt_or_eq with hlt | heq
    · exact simplificationMeasure_lt hlt
    · exact Prod.Lex.toLex_lt_toLex.2 (.inr ⟨heq, hsize⟩)

variable [Number κ] {again : Expr κ → Expr κ}

/-- The result of an operation is the result of a rule. -/
theorem simplifyRoot_rule (again : Expr κ → Expr κ) (e : Expr κ) :
    Rule again e (e.simplifyRoot again) := by
  cases e with
  | var | const => exact .keep _
  | add a b => exact simplifyAdd_rule a b
  | sub a b => exact simplifySub_rule a b
  | mul a b => exact simplifyMul_rule a b
  | div a b => exact simplifyDiv_rule a b
  | pow a b => exact simplifyPow_rule a b
  | apply g a => exact simplifyApply_rule g a

/-- Numbers are added, subtracted and multiplied. -/
theorem isConst_simplifyRoot (h : e.isNumeric = true) : (e.simplifyRoot again).isConst = true := by
  cases e with
  | add a b | sub a b | mul a b =>
      obtain ⟨ha, hb⟩ := Bool.and_eq_true_iff.1 h
      obtain ⟨c, rfl⟩ := exists_const_of_isConst ha
      obtain ⟨d, rfl⟩ := exists_const_of_isConst hb
      rfl
  | _ => simp [isNumeric] at h

/-- An operation whose operands are simplified, and the trees that it rebuilds. -/
theorem noLarger_simplifyStep (hagain : ∀ f : Expr κ,
      f.simplificationMeasure < e.simplificationMeasure → NoLarger f (again f)) :
    (∀ f ∈ e.simplifyCalls again, f.simplificationMeasure < e.simplificationMeasure) ∧
      NoLarger e (e.simplifyStep again) := by
  have hoperands : ∀ a ∈ e.operands, NoLarger a (again a) := fun a ha =>
    hagain a (simplificationMeasure_operand ha)
  have hdepth := depth_mapOperands_le hoperands
  have hrank := rank_mapOperands_le hoperands
  have hbelow : ∀ f : Expr κ, f.height < (e.mapOperands again).height → NoLarger f (again f) :=
    fun f hf => hagain f (simplificationMeasure_lt (hf.trans_le (height_le hdepth hrank.1)))
  obtain ⟨hrank', hdepth'⟩ := (simplifyRoot_rule again (e.mapOperands again)).within hbelow
  refine ⟨List.forall_mem_append.2 ⟨fun a ha => simplificationMeasure_operand ha, fun f hf => ?_⟩,
    hdepth'.trans hdepth, hrank'.trans hrank, fun he => ?_⟩
  · have hlower := rebuilt_lower hbelow f hf
    exact simplificationMeasure_lt (hlower.trans_le (height_le hdepth hrank.1))
  · exact isConst_simplifyRoot (isNumeric_mapOperands hoperands he)

/-- Simplification is a recursion along its measure in which nothing gets larger. -/
theorem descends_simplify :
    Descends (κ := κ) simplificationMeasure simplifyStep simplifyCalls NoLarger where
  decrease _ _ hagain := (noLarger_simplifyStep hagain).1
  good _ _ hagain := (noLarger_simplifyStep hagain).2
  complete _ _ _ h := simplifyStep_congr h

/-- The simplification of an expression, however deep trees are rebuilt within rebuilt trees. -/
noncomputable def unboundedSimplify : Expr κ → Expr κ :=
  recursion simplificationMeasure simplifyStep

/-- **Simplification ends.** -/
theorem recurses_simplify (e : Expr κ) :
    Recurses unboundedSimplify simplifyStep simplifyCalls simplificationMeasure e :=
  descends_simplify.recurses e

/-- Its rules describe no other function. -/
theorem eq_unboundedSimplify (hagain : ∀ e, simplifyStep again e = again e) (e : Expr κ) :
    again e = e.unboundedSimplify :=
  (Recurses.unique recurses_simplify hagain e).symm

/-- Simplification makes nothing larger. -/
theorem noLarger_unboundedSimplify (e : Expr κ) : NoLarger e e.unboundedSimplify :=
  descends_simplify.good_recursion e

/-- **A bound on rebuilt trees within rebuilt trees is not felt if it is large enough.** -/
theorem exists_simplifyWithin_eq (e : Expr κ) :
    ∃ m, ∀ n, m ≤ n → e.simplifyWithin n = e.unboundedSimplify := by
  induction e using (InvImage.wf simplificationMeasure wellFounded_lt).induction with
  | _ e ih =>
      have hcalls : ∀ f ∈ e.simplifyCalls unboundedSimplify,
          ∀ᶠ n in Filter.atTop, f.simplifyWithin n = f.unboundedSimplify := fun f hf =>
        Filter.eventually_atTop.2 (ih f ((recurses_simplify e).decrease f hf))
      obtain ⟨m, hm⟩ := Filter.eventually_atTop.1
        ((Filter.eventually_all_finite (List.finite_toSet _)).2 hcalls)
      refine ⟨m + 1, fun n hn => ?_⟩
      obtain ⟨n, rfl⟩ := Nat.exists_eq_add_of_le' hn
      -- the operands take part in the outermost pass, the rebuilt trees in the next one
      have hoperands : ∀ a ∈ e.operands, a.simplifyWithin (n + m + 1) = a.unboundedSimplify :=
        fun a ha => hm _ (by omega) a (List.mem_append_left _ ha)
      have hrebuilt : ∀ f ∈ (e.mapOperands unboundedSimplify).rebuilt unboundedSimplify,
          f.unboundedSimplify = f.simplifyWithin (n + m) :=
        fun f hf => (hm _ (by omega) f (List.mem_append_right _ hf)).symm
      calc e.simplifyWithin (n + m + 1)
          = (e.mapOperands (simplifyWithin (n + m + 1))).simplifyRoot (simplifyWithin (n + m)) :=
            simplifyWith_eq_root _ e
        _ = (e.mapOperands unboundedSimplify).simplifyRoot unboundedSimplify := by
            rw [mapOperands_congr hoperands, simplifyRoot_congr hrebuilt]
        _ = e.unboundedSimplify := (recurses_simplify e).equation

end Expr

end Reckoner
