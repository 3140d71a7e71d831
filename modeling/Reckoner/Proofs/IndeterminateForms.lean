/-
**Indeterminate forms.**

A limit is taken by substitution, and what makes a form indeterminate is that it has no value: the
operation on its operands is undefined.  Nothing else is checked than that the value of the whole
expression is finite, so that an undefined part has to make the whole undefined.  It does so up to
the next power: a power with the exponent zero is one, whatever its base is, and so is a power of
one.  For the same reason the forms `1 ^ ∞` and `∞ ^ 0` have the value one, and are answered with
it.

Main definitions:

* `Reckoner.Expr.Indeterminate` — an operation whose operands are evaluated as an indeterminate
  form;
* `Reckoner.Expr.exposed`, `Reckoner.Expr.Exposes` — the operands, and the parts, that make an
  expression undefined when they are;
* `Reckoner.Expr.Undecided`, `Reckoner.Expr.OnlyPowers` — an exposed part is an indeterminate form
  other than a power, or only powers are.

Main results:

* `Reckoner.Expr.isUndefined_of_mem_exposed` — an undefined operand makes an operation undefined;
* `Reckoner.Expr.Exposes.isUndefined` — **an undefined part makes the expression undefined**;
* `Reckoner.limit_indeterminate` — **no limit is answered by way of an indeterminate form, except
  for powers and what stands under them**;
* `Reckoner.limit_powersOfOne` — powers and what stands under them are.
-/

import Mathlib.Logic.Relation
import Reckoner.Proofs.Occurrence
import Reckoner.Proofs.Precedence
import Reckoner.Proofs.SpecialValues
import Reckoner.Request.Limit

set_option autoImplicit false

namespace Reckoner

open Arithmetic (isFinite isInfinite isNegative isOne isUndefined isZero)

/-! ### Forms -/

namespace Expr

variable {κ : Type} [Number κ] {σ : Scope κ} {a b e f : Expr κ} {u v w : κ}

/-- The operands have values with a property. -/
def AtOperands (σ : Scope κ) (a b : Expr κ) (p : κ → κ → Bool) : Prop :=
  ∃ u v, a.eval σ = .ok u ∧ b.eval σ = .ok v ∧ p u v = true

/-- An operation whose operands are evaluated as one of the forms `∞ - ∞`, `0 * ∞`, `0 / 0`,
`∞ / ∞`, `1 ^ ∞` and `∞ ^ 0`. -/
def Indeterminate (σ : Scope κ) : Expr κ → Prop
  | .add a b => AtOperands σ a b fun u v =>
      isInfinite u && isInfinite v && isNegative u != isNegative v
  | .sub a b => AtOperands σ a b fun u v =>
      isInfinite u && isInfinite v && isNegative u == isNegative v
  | .mul a b => AtOperands σ a b fun u v =>
      isZero u && isInfinite v || isInfinite u && isZero v
  | .div a b => AtOperands σ a b fun u v =>
      isZero u && isZero v || isInfinite u && isInfinite v
  | .pow a b => AtOperands σ a b fun u v =>
      isOne u && isInfinite v || isInfinite u && isZero v
  | _ => False

/-- The value of an expression, if it has one, has a property. -/
def valueIs (σ : Scope κ) (p : κ → Bool) (e : Expr κ) : Bool :=
  match e.eval σ with
  | .ok v => p v
  | .error _ => false

/-- The operands that make an operation undefined when they are.  They are all of them, except for
the base under an exponent that is zero and the exponent over a base that is one. -/
def exposed (σ : Scope κ) : Expr κ → List (Expr κ)
  | .var _ | .const _ => []
  | .add a b | .sub a b | .mul a b | .div a b => [a, b]
  | .pow a b =>
      (if b.valueIs σ isZero then [] else [a]) ++ (if a.valueIs σ isOne then [] else [b])
  | .apply _ a => [a]

/-- A part that makes an expression undefined when it is. -/
def Exposes (σ : Scope κ) (e f : Expr κ) : Prop :=
  Relation.ReflTransGen (fun e a => a ∈ e.exposed σ) e f

/-- A power. -/
def isPower : Expr κ → Bool
  | .pow _ _ => true
  | _ => false

/-- An exposed part is an indeterminate form and no power. -/
def Undecided (σ : Scope κ) (e : Expr κ) : Prop :=
  ∃ f, e.Exposes σ f ∧ f.Indeterminate σ ∧ f.isPower = false

/-- The exposed parts that are indeterminate forms are powers, and have the value one. -/
def OnlyPowers (σ : Scope κ) (e : Expr κ) : Prop :=
  ∀ f, e.Exposes σ f → f.Indeterminate σ →
    f.isPower = true ∧ ∃ w, f.eval σ = .ok w ∧ isOne w = true

theorem exists_eval_simplify (h : e.eval σ = .ok v) : ∃ w, e.simplify.eval σ = .ok w :=
  eval_isOk_iff.2 (onlyNames_simplify (eval_isOk_iff.1 ⟨v, h⟩))

/-! ### What is undefined -/

section Rules

variable [SpecialValues κ]

open SpecialValues

omit [Number κ] [SpecialValues κ] in
/-- An operation has a value when its operands have. -/
theorem operands_eq_ok_iff {op : κ → κ → κ} {x y : Except EvalError κ} :
    (do return op (← x) (← y)) = .ok v ↔ ∃ u w, x = .ok u ∧ y = .ok w ∧ op u w = v := by
  cases x <;> cases y <;> simp [bind, Except.bind, pure, Except.pure]

/-- **An indeterminate form is undefined, and a power is one.** -/
theorem Indeterminate.eval_eq (h : e.Indeterminate σ) : ∃ w, e.eval σ = .ok w ∧
    if e.isPower then isOne w = true else isUndefined w = true := by
  cases e with
  | var | const | apply => exact absurd h id
  | add a b =>
      obtain ⟨u, v, hu, hv, h⟩ := h
      simp only [Bool.and_eq_true, bne_iff_ne] at h
      exact ⟨u + v, operands_eq_ok_iff.2 ⟨u, v, hu, hv, rfl⟩, add_infinite h.1.1 h.1.2 h.2⟩
  | sub a b =>
      obtain ⟨u, v, hu, hv, h⟩ := h
      simp only [Bool.and_eq_true, beq_iff_eq] at h
      exact ⟨u - v, operands_eq_ok_iff.2 ⟨u, v, hu, hv, rfl⟩, sub_infinite h.1.1 h.1.2 h.2⟩
  | mul a b =>
      obtain ⟨u, v, hu, hv, h⟩ := h
      simp only [Bool.or_eq_true, Bool.and_eq_true] at h
      refine ⟨u * v, operands_eq_ok_iff.2 ⟨u, v, hu, hv, rfl⟩, ?_⟩
      rcases h with ⟨h, h'⟩ | ⟨h, h'⟩
      · exact zero_mul_infinite h h'
      · exact infinite_mul_zero h h'
  | div a b =>
      obtain ⟨u, v, hu, hv, h⟩ := h
      simp only [Bool.or_eq_true, Bool.and_eq_true] at h
      refine ⟨u / v, operands_eq_ok_iff.2 ⟨u, v, hu, hv, rfl⟩, ?_⟩
      rcases h with ⟨h, h'⟩ | ⟨h, h'⟩
      · exact zero_div_zero h h'
      · exact infinite_div_infinite h h'
  | pow a b =>
      obtain ⟨u, v, hu, hv, h⟩ := h
      simp only [Bool.or_eq_true, Bool.and_eq_true] at h
      refine ⟨Arithmetic.pow u v, operands_eq_ok_iff.2 ⟨u, v, hu, hv, rfl⟩, ?_⟩
      rcases h with ⟨h, -⟩ | ⟨-, h⟩
      · exact one_pow h
      · exact pow_zero h

omit [SpecialValues κ] in
/-- An operation with a value has operands with values. -/
theorem exists_eval_of_mem_exposed (ha : a ∈ e.exposed σ) (he : e.eval σ = .ok v) :
    ∃ u, a.eval σ = .ok u := by
  have hdefined := eval_isOk_iff.1 ⟨v, he⟩
  refine eval_isOk_iff.2 ?_
  cases e with
  | var | const => simp [exposed] at ha
  | add b c | sub b c | mul b c | div b c =>
      simp only [onlyNames_add, onlyNames_sub, onlyNames_mul, onlyNames_div] at hdefined
      rcases List.mem_pair.1 ha with rfl | rfl
      · exact hdefined.1
      · exact hdefined.2
  | pow b c =>
      rw [onlyNames_pow] at hdefined
      rcases List.mem_append.1 ha with ha | ha
      · obtain ⟨-, ha⟩ := by simpa using ha
        exact ha ▸ hdefined.1
      · obtain ⟨-, ha⟩ := by simpa using ha
        exact ha ▸ hdefined.2
  | apply f b =>
      obtain rfl := List.mem_singleton.1 ha
      exact onlyNames_apply.1 hdefined

omit [SpecialValues κ] in
/-- Of two operands one is undefined. -/
theorem isUndefined_or_of_mem {b c : Expr κ} (ha : a ∈ [b, c]) (hu : a.eval σ = .ok u)
    (hundefined : isUndefined u = true) (hb : b.eval σ = .ok v) (hc : c.eval σ = .ok w) :
    isUndefined v = true ∨ isUndefined w = true := by
  rcases List.mem_pair.1 ha with rfl | rfl
  · exact .inl (Except.ok.inj (hu.symm.trans hb) ▸ hundefined)
  · exact .inr (Except.ok.inj (hu.symm.trans hc) ▸ hundefined)

/-- **An undefined operand makes an operation undefined**, if it is exposed. -/
theorem isUndefined_of_mem_exposed (ha : a ∈ e.exposed σ) (hu : a.eval σ = .ok u)
    (hundefined : isUndefined u = true) (he : e.eval σ = .ok v) : isUndefined v = true := by
  cases e with
  | var | const => simp [exposed] at ha
  | add b c =>
      obtain ⟨s, t, hs, ht, rfl⟩ := operands_eq_ok_iff.1 he
      exact add_undefined (isUndefined_or_of_mem ha hu hundefined hs ht)
  | sub b c =>
      obtain ⟨s, t, hs, ht, rfl⟩ := operands_eq_ok_iff.1 he
      exact sub_undefined (isUndefined_or_of_mem ha hu hundefined hs ht)
  | mul b c =>
      obtain ⟨s, t, hs, ht, rfl⟩ := operands_eq_ok_iff.1 he
      exact mul_undefined (isUndefined_or_of_mem ha hu hundefined hs ht)
  | div b c =>
      obtain ⟨s, t, hs, ht, rfl⟩ := operands_eq_ok_iff.1 he
      exact div_undefined (isUndefined_or_of_mem ha hu hundefined hs ht)
  | pow b c =>
      obtain ⟨s, t, hs, ht, rfl⟩ := operands_eq_ok_iff.1 he
      rcases List.mem_append.1 ha with ha | ha
      · obtain ⟨hexponent, rfl⟩ := by simpa using ha
        obtain rfl := Except.ok.inj (hu.symm.trans hs)
        -- the base is exposed only because the exponent is not zero
        rw [valueIs, ht] at hexponent
        exact pow_undefined_base hundefined hexponent
      · obtain ⟨hbase, rfl⟩ := by simpa using ha
        obtain rfl := Except.ok.inj (hu.symm.trans ht)
        rw [valueIs, hs] at hbase
        exact pow_undefined_exponent hundefined hbase
  | apply f b =>
      obtain rfl := List.mem_singleton.1 ha
      rw [eval, hu] at he
      obtain rfl := Except.ok.inj he
      exact apply_undefined f hundefined

/-- **An undefined part makes the expression undefined**, if it is exposed. -/
theorem Exposes.isUndefined (h : e.Exposes σ f) (hf : f.eval σ = .ok u)
    (hu : Arithmetic.isUndefined u = true) (he : e.eval σ = .ok v) :
    Arithmetic.isUndefined v = true := by
  -- from the part up to the whole: each operation has a value, since the whole has one
  induction h using Relation.ReflTransGen.head_induction_on generalizing v with
  | refl => exact Except.ok.inj (hf.symm.trans he) ▸ hu
  | head hstep _ ih =>
      obtain ⟨w, hw⟩ := exists_eval_of_mem_exposed hstep he
      exact isUndefined_of_mem_exposed hstep hw (ih hw) he

/-- **Of an expression with a finite value no exposed part is an indeterminate form**, apart from
powers. -/
theorem onlyPowers_of_isFinite (he : e.eval σ = .ok v) (hv : isFinite v = true) :
    e.OnlyPowers σ := by
  intro f hexposed hform
  obtain ⟨w, hw, hvalue⟩ := hform.eval_eq
  split at hvalue
  · rename_i hpower
    exact ⟨hpower, w, hw, hvalue⟩
  · have hundefined := hexposed.isUndefined hw hvalue he
    rw [isFinite_of_isUndefined hundefined] at hv
    exact absurd hv Bool.false_ne_true

/-- An expression with an exposed part that is an indeterminate form and no power has no finite
value. -/
theorem Undecided.isFinite_eq_false (h : e.Undecided σ) (he : e.eval σ = .ok v) :
    isFinite v = false := by
  obtain ⟨f, hexposed, hform, hpower⟩ := h
  rw [Bool.eq_false_iff]
  intro hv
  have hpower' := (onlyPowers_of_isFinite he hv f hexposed hform).1
  rw [hpower] at hpower'
  exact Bool.false_ne_true hpower'

end Rules

end Expr

/-! ### Limits -/

section Limits

variable {κ : Type} [Number κ] {text x target s : String} {point v w : κ} {e : Expr κ}

/-- A finite value is the limit. -/
theorem limit_of_isFinite (hpoint : parseTarget target = .ok point) (he : parseExpr text = .ok e)
    (hv : e.eval (Scope.single x point) = .ok v) (hfinite : isFinite v = true) :
    (limit text x target : Outcome κ).result = .ok (Number.reading v).fixed6 := by
  simp [limit, hpoint, he, Expr.value_of_eval hv, hfinite, bind, Except.bind, pure, Except.pure]

/-- Another value is computed once more, from the simplified expression. -/
theorem limit_of_not_isFinite (hpoint : parseTarget target = .ok point)
    (he : parseExpr text = .ok e) (hv : e.eval (Scope.single x point) = .ok v)
    (hfinite : isFinite v = false) (hw : e.simplify.eval (Scope.single x point) = .ok w) :
    (limit text x target : Outcome κ).result =
      if isFinite w then .ok (Number.reading w).fixed6 else .error .indeterminate := by
  simp [limit, hpoint, he, Expr.value_of_eval hv, hfinite, retriedLimit, Expr.value_of_eval hw,
    bind, Except.bind, pure, Except.pure]
  rfl

/-- A limit that has an answer has a value at the point. -/
theorem exists_of_limit (h : (limit text x target : Outcome κ).result = .ok s) :
    ∃ (point : κ) (e : Expr κ) (v : κ), parseTarget target = .ok point ∧
      parseExpr text = .ok e ∧ e.eval (Scope.single x point) = .ok v := by
  cases hpoint : (parseTarget target : Except Failure κ) with
  | error failure => simp [limit, hpoint, bind, Except.bind] at h
  | ok point =>
      cases he : (parseExpr text : Except Failure (Expr κ)) with
      | error failure => simp [limit, hpoint, he, bind, Except.bind] at h
      | ok e =>
          cases hv : e.eval (Scope.single x point) with
          | error failure =>
              have hvalue : e.value (Scope.single x point) = .error (.evaluation failure) := by
                rw [Expr.value, hv]
                rfl
              simp [limit, hpoint, he, hvalue, bind, Except.bind] at h
          | ok v => exact ⟨point, e, v, rfl, rfl, hv⟩

end Limits

open Extended (signed unit zero_eq one_eq ofDecimal_one ofDecimal_zero denotes_unit isInfinite_iff)

/-! ### Limits over the real numbers -/

section RealLimits

open Notation (Spells)

/-- The variable at infinity. -/
noncomputable def atInfinity : Scope Extended := Scope.single "x" Arithmetic.infinity

/-- The variable at zero. -/
noncomputable def atZero : Scope Extended := Scope.single "x" Arithmetic.zero

/-- The variable. -/
def unknown : Expr Extended := .var "x"

/-- The number one, as it is read. -/
noncomputable def oneRead : Expr Extended := .const (Arithmetic.ofDecimal 1 0)

theorem spells_unknown : Spells .signed ['x'] unknown :=
  .unsigned (.atom (.name (x := "x") (by decide)))

theorem spells_oneRead : Spells .signed ['1'] oneRead := .unsigned (.atom (.digit rfl))

/-- A rational value of an expression is its limit. -/
theorem limit_of_denotes {text target : String} {point v : Extended} {e : Expr Extended} {q : ℚ}
    (hpoint : parseTarget target = .ok point) (he : parseExpr text = .ok e)
    (hv : e.eval (Scope.single "x" point) = .ok v) (hq : Extended.Denotes v q) :
    (limit text "x" target : Outcome Extended).result = .ok (Reading.finite q).fixed6 := by
  rw [limit_of_isFinite hpoint he hv hq.isFinite, hq.reading_eq, (Reading.format_printed q).2]

/-- A power with the exponent zero, or of one, has the value one and the limit one. -/
theorem limit_power {text target : String} {point u v : Extended} {a b : Expr Extended}
    (hpoint : parseTarget target = .ok point) (hread : parseExpr text = .ok (.pow a b))
    (ha : a.eval (Scope.single "x" point) = .ok u) (hb : b.eval (Scope.single "x" point) = .ok v)
    (h : (∃ s, v = signed s 0) ∨ u = unit) :
    (Expr.pow a b).eval (Scope.single "x" point) = .ok unit ∧
      (limit text "x" target : Outcome Extended).result = .ok "1.000000" := by
  have hvalue : (Expr.pow a b).eval (Scope.single "x" point) = .ok unit :=
    Expr.operands_eq_ok_iff.2 ⟨u, v, ha, hb, if_pos h⟩
  have hprinted : (Reading.finite 1).fixed6 = "1.000000" := by decide +kernel
  refine ⟨hvalue, ?_⟩
  rw [limit_of_denotes hpoint hread hvalue denotes_unit, hprinted]

theorem eval_unknown_atInfinity : unknown.eval atInfinity = .ok (signed false ⊤) := rfl

/-- The reciprocal vanishes at infinity. -/
theorem eval_reciprocal : (Expr.div oneRead unknown).eval atInfinity = .ok (signed false 0) := by
  have hquotient : (unit / signed false ⊤ : Extended) = signed false 0 := by
    show Extended.divided unit (signed false ⊤) = _
    simp [Extended.divided, unit]
  refine Expr.operands_eq_ok_iff.2 ⟨_, _, rfl, eval_unknown_atInfinity, ?_⟩
  rw [ofDecimal_one]
  exact hquotient

theorem parseExpr_of_spells {text : String} {t : List Char} {e : Expr Extended}
    (h : Spells .sum t e) (htext : text.toList = t) : parseExpr text = .ok e := by
  rw [parseExpr, Expr.parse, htext, h.parse_eq_ok]
  rfl

theorem spells_reciprocal : Spells .product (['1'] ++ '/' :: ['x']) (.div oneRead unknown) :=
  .tight_quotient (.factor spells_oneRead) spells_unknown

theorem parseTarget_inf : (parseTarget "inf" : Except Failure Extended) =
    .ok Arithmetic.infinity := rfl

theorem parseTarget_zero : (parseTarget "0" : Except Failure Extended) = .ok Arithmetic.zero := by
  have hfinite : isFinite (Arithmetic.zero : Extended) = true :=
    Extended.denotes_zero.isFinite
  have hread : (Arithmetic.readFinite? ['0'] : Option Extended) = some Arithmetic.zero := by
    show Option.filter (isFinite ·) (some (Arithmetic.ofDecimal 0 0 : Extended)) = _
    rw [ofDecimal_zero]
    simp [hfinite]
  show (match (Arithmetic.readFinite? ['0'] : Option Extended) with
    | some point => Except.ok point
    | none => Except.error (Failure.noTarget "0")) = _
  rw [hread]

end RealLimits

/-! ### Forms that are answered and forms that are not -/

/-- **No limit is answered by way of an indeterminate form, except for powers and what stands under
them.**  An answer is the finite value of the expression, or of the simplified expression, whose
exposed parts are no indeterminate forms, apart from powers with the value one.  And where both
have an exposed part that is such a form and no power, the failure says so. -/
theorem limit_indeterminate {κ : Type} [Number κ] [SpecialValues κ] (text x target : String) :
    (∀ s, (limit text x target : Outcome κ).result = .ok s →
      ∃ (point : κ) (tree e : Expr κ) (v : κ), parseTarget target = .ok point ∧
        parseExpr text = .ok tree ∧
        (e = tree ∨ e = tree.simplify ∧
          ∃ u, tree.eval (Scope.single x point) = .ok u ∧ isFinite u = false) ∧
        e.eval (Scope.single x point) = .ok v ∧ isFinite v = true ∧
        s = (Number.reading v).fixed6 ∧ e.OnlyPowers (Scope.single x point)) ∧
    ∀ (point : κ) (tree : Expr κ) (v : κ), parseTarget target = .ok point →
      parseExpr text = .ok tree → tree.eval (Scope.single x point) = .ok v →
      tree.Undecided (Scope.single x point) → tree.simplify.Undecided (Scope.single x point) →
      (limit text x target : Outcome κ).result = .error .indeterminate := by
  constructor
  · intro s hs
    obtain ⟨point, tree, v, hpoint, htree, hv⟩ := exists_of_limit hs
    cases hfinite : isFinite v with
    | true =>
        rw [limit_of_isFinite hpoint htree hv hfinite] at hs
        exact ⟨point, tree, tree, v, hpoint, htree, .inl rfl, hv, hfinite,
          (Except.ok.inj hs).symm, Expr.onlyPowers_of_isFinite hv hfinite⟩
    | false =>
        obtain ⟨w, hw⟩ := Expr.exists_eval_simplify hv
        rw [limit_of_not_isFinite hpoint htree hv hfinite hw] at hs
        split at hs
        · rename_i hfinite'
          exact ⟨point, tree, tree.simplify, w, hpoint, htree, .inr ⟨rfl, v, hv, hfinite⟩, hw,
            hfinite', (Except.ok.inj hs).symm, Expr.onlyPowers_of_isFinite hw hfinite'⟩
        · simp at hs
  · intro point tree v hpoint htree hv hundecided hundecided'
    obtain ⟨w, hw⟩ := Expr.exists_eval_simplify hv
    rw [limit_of_not_isFinite hpoint htree hv (hundecided.isFinite_eq_false hv) hw,
      hundecided'.isFinite_eq_false hw]
    rfl

/-- A reciprocal has a limit at infinity, and a quotient of two infinities has none. -/
theorem limit_indeterminate_quotients :
    ((limit "1/x" "x" "inf" : Outcome Extended).result = .ok "0.000000" ∧
      ((Expr.div oneRead unknown).OnlyPowers atInfinity ∨
        (Expr.div oneRead unknown).simplify.OnlyPowers atInfinity)) ∧
    (Expr.div unknown (.apply .exp unknown)).Undecided atInfinity ∧
      (Expr.div unknown (.apply .exp unknown)).simplify.Undecided atInfinity ∧
      (limit "x/exp(x)" "x" "inf" : Outcome Extended).result = .error .indeterminate := by
  constructor
  · have hread : parseExpr "1/x" = .ok (.div oneRead unknown) :=
      parseExpr_of_spells (.term spells_reciprocal) rfl
    have hresult : (limit "1/x" "x" "inf" : Outcome Extended).result = .ok "0.000000" := by
      have hzero : Extended.Denotes (signed false 0) (0 : ℚ) := by
        simpa [zero_eq] using Extended.denotes_zero
      have hprinted : (Reading.finite 0).fixed6 = "0.000000" := by decide +kernel
      rw [limit_of_denotes parseTarget_inf hread eval_reciprocal hzero, hprinted]
    refine ⟨hresult, ?_⟩
    obtain ⟨point, tree, e, v, hpoint, htree, he, -, -, -, honly⟩ :=
      (limit_indeterminate "1/x" "x" "inf").1 _ hresult
    obtain rfl := Except.ok.inj (hpoint.symm.trans parseTarget_inf)
    obtain rfl := Except.ok.inj (htree.symm.trans hread)
    rcases he with rfl | ⟨rfl, -⟩
    · exact .inl honly
    · exact .inr honly
  · have hread : parseExpr "x/exp(x)" = .ok (.div unknown (.apply .exp unknown)) :=
      parseExpr_of_spells (.term (.tight_quotient (.factor spells_unknown) (.unsigned
        (.atom (.tight_call (x := "exp") rfl (.term (.factor spells_unknown))))))) rfl
    have hdivisor : (Expr.apply .exp unknown).eval atInfinity = .ok (signed false ⊤) := by
      show Except.ok (Extended.lift Real.exp (signed false 0) (signed false ⊤)
        (signed false ⊤)) = _
      simp [Extended.lift]
    have hundecided : (Expr.div unknown (.apply .exp unknown)).Undecided atInfinity := by
      have hinfinite : isInfinite (signed false ⊤) = true := isInfinite_iff.2 ⟨false, rfl⟩
      exact ⟨_, .refl, ⟨_, _, eval_unknown_atInfinity, hdivisor, by simp [hinfinite]⟩, rfl⟩
    exact ⟨hundecided, hundecided, (limit_indeterminate "x/exp(x)" "x" "inf").2 _ _ _
      parseTarget_inf hread rfl hundecided hundecided⟩

/-- **Powers are answered with one**: `1 ^ ∞`, `∞ ^ 0` and a power over `0 / 0`, with operands in
which the variable occurs. -/
theorem limit_powersOfOne :
    (∃ a b : Expr Extended, parseExpr "(1+1/x)^x" = .ok (.pow a b) ∧
      a.mentions "x" = true ∧ b.mentions "x" = true ∧
      a.eval atInfinity = .ok Arithmetic.one ∧ b.eval atInfinity = .ok Arithmetic.infinity ∧
      (Expr.pow a b).eval atInfinity = .ok Arithmetic.one ∧
      (limit "(1+1/x)^x" "x" "inf" : Outcome Extended).result = .ok "1.000000") ∧
    (∃ a b : Expr Extended, parseExpr "x^(1/x)" = .ok (.pow a b) ∧
      a.mentions "x" = true ∧ b.mentions "x" = true ∧
      a.eval atInfinity = .ok Arithmetic.infinity ∧ b.eval atInfinity = .ok Arithmetic.zero ∧
      (Expr.pow a b).eval atInfinity = .ok Arithmetic.one ∧
      (limit "x^(1/x)" "x" "inf" : Outcome Extended).result = .ok "1.000000") ∧
    (∃ a b c : Expr Extended, parseExpr "(x/x)^x" = .ok (.pow (.div a b) c) ∧
      a.mentions "x" = true ∧ b.mentions "x" = true ∧
      a.eval atZero = .ok Arithmetic.zero ∧ b.eval atZero = .ok Arithmetic.zero ∧
      (Expr.pow (.div a b) c).eval atZero = .ok Arithmetic.one ∧
      (limit "(x/x)^x" "x" "0" : Outcome Extended).result = .ok "1.000000") := by
  have hbase : (Expr.add oneRead (.div oneRead unknown)).eval atInfinity = .ok unit := by
    refine Expr.operands_eq_ok_iff.2 ⟨_, _, rfl, eval_reciprocal, ?_⟩
    rw [ofDecimal_one]
    show Extended.plus unit (signed false 0) = unit
    simp [Extended.plus, unit]
  rw [one_eq]
  refine ⟨?_, ?_, ?_⟩
  · have hread : parseExpr "(1+1/x)^x" =
        .ok (.pow (.add oneRead (.div oneRead unknown)) unknown) :=
      parseExpr_of_spells (.term (.factor (.unsigned (.tight_power
        (.tight_group (.tight_sum (.term (.factor spells_oneRead)) spells_reciprocal))
        spells_unknown)))) rfl
    have hlimit := limit_power parseTarget_inf hread hbase eval_unknown_atInfinity (.inr rfl)
    exact ⟨_, _, hread, rfl, rfl, hbase, rfl, hlimit⟩
  · have hread : parseExpr "x^(1/x)" = .ok (.pow unknown (.div oneRead unknown)) :=
      parseExpr_of_spells (.term (.factor (.unsigned (.tight_power (.name (x := "x") (by decide))
        (.unsigned (.atom (.tight_group (.term spells_reciprocal)))))))) rfl
    have hlimit := limit_power parseTarget_inf hread eval_unknown_atInfinity eval_reciprocal
      (.inl ⟨false, rfl⟩)
    exact ⟨_, _, hread, rfl, rfl, rfl, zero_eq ▸ eval_reciprocal, hlimit⟩
  · have hread : parseExpr "(x/x)^x" = .ok (.pow (.div unknown unknown) unknown) :=
      parseExpr_of_spells (.term (.factor (.unsigned (.tight_power
        (.tight_group (.term (.tight_quotient (.factor spells_unknown) spells_unknown)))
        spells_unknown)))) rfl
    have hlimit := limit_power parseTarget_zero hread (u := Arithmetic.zero / Arithmetic.zero)
      rfl rfl (.inl ⟨false, zero_eq⟩)
    exact ⟨unknown, unknown, unknown, hread, rfl, rfl, rfl, rfl, hlimit⟩

end Reckoner
