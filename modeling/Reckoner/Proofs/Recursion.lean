/-
**The calls of simplification.**

Simplification is defined by one pass over an expression, in which the trees that a rule rebuilds
are simplified at most as deep as the weight of the expression allows.  This module shows that the
bound is never felt: simplification is the recursion that its rules describe, one operation with
simplified operands after the other, and it calls itself on the operands and on the rebuilt trees
only.

The trees that a rule may rebuild are listed here without the tests that precede the rule.  Some of
them contain the result of another call, as does the power of a base with a simplified difference
of exponents; these are listed with that result.  The list is complete, since the result of an
operation depends on no other call.  Everything on it is lighter than the operation with its
simplified operands, which in turn is no heavier than the operation itself.  An operand may weigh
as much as the operation, but it is smaller.

Main definitions:

* `Reckoner.Expr.operands`, `Reckoner.Expr.mapOperands` — the operands of an operation;
* `Reckoner.Expr.simplifyRoot` — one operation, with operands that are simplified;
* `Reckoner.Expr.rebuilt` — the trees that it may rebuild;
* `Reckoner.Expr.simplifyStep`, `Reckoner.Expr.simplifyCalls` — the simplification of an expression
  from that of others, and the expressions it calls for.

Main results:

* `Reckoner.Expr.simplifyRoot_congr` — an operation depends on no other calls;
* `Reckoner.Expr.rebuilt_lighter` — rebuilt trees are lighter;
* `Reckoner.Expr.simplify_eq` — **simplification is the recursion of its rules**;
* `Reckoner.Expr.simplify_induction` — induction along the calls of simplification.
-/

import Reckoner.Proofs.Settled

set_option autoImplicit false

namespace Reckoner.Expr

open Arithmetic (one)

variable {κ : Type} {a b e f : Expr κ}

/-! ### Operands -/

/-- The operands of an operation. -/
def operands : Expr κ → List (Expr κ)
  | .var _ | .const _ => []
  | .add a b | .sub a b | .mul a b | .div a b | .pow a b => [a, b]
  | .apply _ a => [a]

/-- The same operation with other operands. -/
def mapOperands (F : Expr κ → Expr κ) : Expr κ → Expr κ
  | .var x => .var x
  | .const c => .const c
  | .add a b => .add (F a) (F b)
  | .sub a b => .sub (F a) (F b)
  | .mul a b => .mul (F a) (F b)
  | .div a b => .div (F a) (F b)
  | .pow a b => .pow (F a) (F b)
  | .apply f a => .apply f (F a)

theorem operands_mapOperands (F : Expr κ → Expr κ) (e : Expr κ) :
    (e.mapOperands F).operands = e.operands.map F := by
  cases e <;> rfl

theorem mapOperands_congr {F G : Expr κ → Expr κ} (h : ∀ a ∈ e.operands, F a = G a) :
    e.mapOperands F = e.mapOperands G := by
  cases e <;> simp_all [operands, mapOperands]

/-- Induction from the operands to the operation. -/
theorem operand_induction {P : Expr κ → Prop} (step : ∀ e, (∀ a ∈ e.operands, P a) → P e)
    (e : Expr κ) : P e := by
  induction e <;> apply step <;> simp_all [operands]

theorem size_operand (h : a ∈ e.operands) : a.size < e.size := by
  cases e <;> simp only [operands, List.mem_cons, List.not_mem_nil, or_false] at h <;>
    rcases h with rfl | rfl <;> simp only [size] <;> omega

theorem weight_operand (h : a ∈ e.operands) : a.weight ≤ e.weight := by
  cases e <;> simp only [operands, List.mem_cons, List.not_mem_nil, or_false] at h <;>
    rcases h with rfl | rfl <;> simp only [weight] <;> omega

/-- Lighter operands make no heavier operation. -/
theorem weight_mapOperands_le {F : Expr κ → Expr κ}
    (h : ∀ a ∈ e.operands, (F a).weight ≤ a.weight) : (e.mapOperands F).weight ≤ e.weight := by
  cases e <;> simp only [operands, List.forall_mem_cons, List.not_mem_nil, false_imp_iff,
    implies_true, and_true] at h <;> simp only [mapOperands, weight] <;> omega

theorem named_operands : Named e → ∀ a ∈ e.operands, Named a := by
  cases e <;> simp [operands, Named]

theorem named_mapOperands {F : Expr κ → Expr κ} :
    Named e → (∀ a ∈ e.operands, Named (F a)) → Named (e.mapOperands F) := by
  cases e <;> simp_all [operands, mapOperands, Named]

/-! ### Rebuilt trees -/

variable [Number κ] {again again' : Expr κ → Expr κ} {n : ℕ}

/-- One operation, with operands that are simplified. -/
def simplifyRoot (again : Expr κ → Expr κ) : Expr κ → Expr κ
  | .var x => .var x
  | .const c => .const c
  | .add a b => simplifyAdd a b
  | .sub a b => simplifySub again a b
  | .mul a b => simplifyMul again a b
  | .div a b => simplifyDiv again a b
  | .pow a b => simplifyPow again a b
  | .apply f a => simplifyApply f a

/-- One pass is one operation after the other. -/
theorem simplifyWith_eq_root (again : Expr κ → Expr κ) (e : Expr κ) :
    e.simplifyWith again = (e.mapOperands (simplifyWith again)).simplifyRoot again := by
  cases e <;> rfl

/-- The sum of exponents that one more power in a list of powers makes necessary. -/
def mergeCalls (base exponent : Expr κ) : List (Expr κ × Expr κ) → List (Expr κ)
  | [] => []
  | (b, e) :: rest => if b.same base then [.add e exponent] else mergeCalls base exponent rest

/-- The sums of exponents that the factors of a product make necessary, one after the other. -/
def factorCalls (again : Expr κ → Expr κ) (powers : List (Expr κ × Expr κ)) :
    List (Expr κ) → List (Expr κ)
  | [] => []
  | e :: rest =>
      if e.isConst then factorCalls again powers rest
      else mergeCalls e.baseAndExponent.1 e.baseAndExponent.2 powers ++
        factorCalls again
          (mergePower again e.baseAndExponent.1 e.baseAndExponent.2 powers) rest

/-- The products that a division by a number may make necessary. -/
def scaledNumerators : Expr κ → Expr κ → List (Expr κ)
  | .mul (.const c) a, .const d =>
      [.mul (.const (c / d)) a, .mul (.const (one / d)) (.mul (.const c) a)]
  | a, .const d => [.mul (.const (one / d)) a]
  | _, _ => []

/-- The trees that an operation with simplified operands may rebuild. -/
def rebuilt (again : Expr κ → Expr κ) : Expr κ → List (Expr κ)
  | .sub _ b => [b.negated]
  | .mul a b => factorCalls again [] (Expr.mul a b).factors
  | .div a b =>
      let difference := .sub a.baseAndExponent.2 b.baseAndExponent.2
      scaledNumerators a b ++ [difference, .pow a.baseAndExponent.1 (again difference)]
  | .pow (.pow base m) b => [.mul m b, .pow base (again (.mul m b))]
  | _ => []

/-! ### There are no other calls -/

theorem mergePower_congr {base exponent : Expr κ} {ps : List (Expr κ × Expr κ)}
    (h : ∀ f ∈ mergeCalls base exponent ps, again f = again' f) :
    mergePower again base exponent ps = mergePower again' base exponent ps := by
  induction ps with
  | nil => rfl
  | cons p ps ih =>
      obtain ⟨b, m⟩ := p
      simp only [mergeCalls] at h
      simp only [mergePower]
      split
      · rename_i hsame
        rw [if_pos hsame] at h
        rw [h _ List.mem_cons_self]
      · rename_i hsame
        rw [if_neg hsame] at h
        rw [ih h]

theorem mergeFactors_congr {c : κ} {es : List (Expr κ)} {ps : List (Expr κ × Expr κ)}
    (h : ∀ f ∈ factorCalls again ps es, again f = again' f) :
    mergeFactors again c ps es = mergeFactors again' c ps es := by
  induction es generalizing c ps with
  | nil => rfl
  | cons e es ih =>
      cases hc : e.isConst with
      | true =>
          obtain ⟨d, rfl⟩ := exists_const_of_isConst hc
          exact ih (by simpa [factorCalls, isConst] using h)
      | false =>
          rw [factorCalls, hc, if_neg Bool.false_ne_true] at h
          obtain ⟨hmerge, hrest⟩ := List.forall_mem_append.1 h
          rw [mergeFactors_cons hc, mergeFactors_cons hc, ← mergePower_congr hmerge]
          exact ih hrest

/-- **An operation depends on no call but those on the trees that it may rebuild.** -/
theorem simplifyRoot_congr (h : ∀ f ∈ e.rebuilt again, again f = again' f) :
    e.simplifyRoot again = e.simplifyRoot again' := by
  cases e with
  | sub a b =>
      have hneg := h _ (List.mem_singleton.2 rfl)
      simp only [simplifyRoot]
      unfold simplifySub
      split
      · rfl
      · rw [hneg]
  | mul a b =>
      have hfactors : simplifyProduct again (.mul a b) = simplifyProduct again' (.mul a b) := by
        unfold simplifyProduct
        rw [mergeFactors_congr h]
      simp only [simplifyRoot]
      unfold simplifyMul
      split
      · rfl
      · rw [hfactors]
  | div a b =>
      simp only [rebuilt, List.forall_mem_append, List.forall_mem_cons] at h
      obtain ⟨hscaled, hdifference, hpower, -⟩ := h
      have hquotient :
          simplifyQuotientOfPowers again a b = simplifyQuotientOfPowers again' a b := by
        unfold simplifyQuotientOfPowers
        dsimp only
        rw [hpower, hdifference]
      simp only [simplifyRoot]
      unfold simplifyDiv
      split
      · rfl
      · split_ifs
        · rfl
        · rfl
        · rfl
        · split
          · rw [hquotient]
            split
            · rfl
            · exact hscaled _ (by simp [scaledNumerators])
          · rw [hquotient]
          · rw [hquotient]
            split
            · rfl
            · exact hscaled _ (by simp [scaledNumerators])
          · rw [hquotient]
            split
            · rfl
            · exact hscaled _ (by simp [scaledNumerators])
          · exact hquotient
  | pow a b =>
      simp only [simplifyRoot]
      unfold simplifyPow
      split
      · rfl
      · split_ifs
        · rfl
        · rfl
        · rfl
        · split
          · simp only [rebuilt, List.forall_mem_cons] at h
            rw [h.2.1, h.1]
          · rfl
  | _ => rfl

/-- The simplification of an expression, with a function for all that it calls. -/
def simplifyStep (again : Expr κ → Expr κ) (e : Expr κ) : Expr κ :=
  (e.mapOperands again).simplifyRoot again

/-- The expressions whose simplification the simplification of an expression calls for. -/
def simplifyCalls (again : Expr κ → Expr κ) (e : Expr κ) : List (Expr κ) :=
  e.operands ++ (e.mapOperands again).rebuilt again

theorem simplifyStep_congr (h : ∀ f ∈ e.simplifyCalls again, again f = again' f) :
    simplifyStep again e = simplifyStep again' e := by
  obtain ⟨hoperands, hrebuilt⟩ := List.forall_mem_append.1 h
  rw [simplifyStep, simplifyRoot_congr hrebuilt, mapOperands_congr hoperands, simplifyStep]

/-! ### Rebuilt trees are lighter -/

section Exact

variable [ExactNumber κ]

omit [ExactNumber κ] in
theorem exponent_lt_powerWeight (p : Expr κ × Expr κ) : p.2.weight < powerWeight p := by
  unfold powerWeight
  split <;> omega

omit [ExactNumber κ] in
theorem mergeCalls_lighter {p : Expr κ × Expr κ} {ps : List (Expr κ × Expr κ)}
    (hps : ∀ q ∈ ps, SettledPower q) (hp : SettledPower p) :
    ∀ f ∈ mergeCalls p.1 p.2 ps, Named f ∧ f.weight < powersWeight ps + powerWeight p := by
  induction ps with
  | nil => simp [mergeCalls]
  | cons q ps ih =>
      obtain ⟨hq, hrest⟩ := List.forall_mem_cons.1 hps
      have hwp := exponent_lt_powerWeight p
      have hwq := exponent_lt_powerWeight q
      obtain ⟨b, m⟩ := q
      simp only [mergeCalls]
      rw [powersWeight_cons]
      split
      · simp only [List.mem_singleton, forall_eq, weight]
        exact ⟨onlyNames_add.2 ⟨hq.namedExponent, hp.namedExponent⟩, by dsimp only at hwq; omega⟩
      · intro f hf
        obtain ⟨hnamed, hlt⟩ := ih hrest f hf
        exact ⟨hnamed, by omega⟩

theorem factorCalls_lighter (hagain : Simplifies again n) {es : List (Expr κ)}
    {ps : List (Expr κ × Expr κ)} (hps : ∀ q ∈ ps, SettledPower q)
    (hes : ∀ f ∈ es, f.isConst = false → f.isProduct = false ∧ Settled f ∧ Named f)
    (hn : powersWeight ps + weights es ≤ n) :
    ∀ f ∈ factorCalls again ps es, Named f ∧ f.weight < powersWeight ps + weights es := by
  induction es generalizing ps with
  | nil => simp [factorCalls]
  | cons e es ih =>
      obtain ⟨he, hrest⟩ := List.forall_mem_cons.1 hes
      rw [weights_cons] at hn ⊢
      rw [factorCalls]
      split
      · intro f hf
        obtain ⟨hnamed, hlt⟩ := ih hps hrest (by omega) f hf
        exact ⟨hnamed, by omega⟩
      · rename_i hc
        obtain ⟨hproduct, hsettled, hnamed⟩ := he (Bool.eq_false_iff.2 hc)
        obtain ⟨hpower, hweight⟩ :=
          settledPower_baseAndExponent hsettled hnamed (Bool.eq_false_iff.2 hc) hproduct
        obtain ⟨hmerged, hle⟩ := settledPower_mergePower hagain hps hpower (by omega)
        refine List.forall_mem_append.2 ⟨fun f hf => ?_, fun f hf => ?_⟩
        · obtain ⟨hnamed, hlt⟩ := mergeCalls_lighter hps hpower f hf
          exact ⟨hnamed, by omega⟩
        · obtain ⟨hnamed, hlt⟩ := ih hmerged hrest (by omega) f hf
          exact ⟨hnamed, by omega⟩

omit [ExactNumber κ] in
theorem scaledNumerators_lighter (ha : Named a) :
    ∀ f ∈ scaledNumerators a b, Named f ∧ f.weight ≤ a.weight + b.weight := by
  unfold scaledNumerators
  split
  · simp_all [Named, weight]
  · simp_all [Named, weight]
  · simp

/-- **A rebuilt tree is lighter than the operation** with its simplified operands. -/
theorem rebuilt_lighter (hagain : Simplifies again n) (hsettled : ∀ a ∈ e.operands, Settled a)
    (hnamed : Named e) (hn : e.weight ≤ n) :
    ∀ f ∈ e.rebuilt again, Named f ∧ f.weight < e.weight := by
  cases e with
  | sub a b =>
      simp only [rebuilt, List.mem_singleton, forall_eq, onlyNames_negated]
      refine ⟨(onlyNames_sub.1 hnamed).2, ?_⟩
      simp only [negated, ofInt, weight]
      omega
  | mul a b =>
      simp only [operands, List.forall_mem_cons] at hsettled
      have hmul : Settled (.mul a b) := hsettled.1.mul hsettled.2.1
      have hes : ∀ f ∈ (Expr.mul a b).factors, f.isConst = false →
          f.isProduct = false ∧ Settled f ∧ Named f := fun f hf _ =>
        ⟨isProduct_of_mem_factors hf, hereditary_settled.factors hmul f hf,
          hereditary_named.factors hnamed f hf⟩
      have hnone : ∀ q ∈ ([] : List (Expr κ × Expr κ)), SettledPower q := by simp
      have hlighter := factorCalls_lighter hagain hnone hes
      rw [powersWeight_nil, zero_add, weights_factors] at hlighter
      exact hlighter hn
  | div a b =>
      obtain ⟨hna, hnb⟩ := onlyNames_div.1 hnamed
      have hweight : (Expr.div a b).weight = a.weight + b.weight + 3 := rfl
      have hwa := a.weight_baseAndExponent_le
      have hwb := b.weight_baseAndExponent_le
      obtain ⟨hbase, hm⟩ := onlyNames_baseAndExponent hna
      obtain ⟨-, hk⟩ := onlyNames_baseAndExponent hnb
      have hdifference : Named (Expr.sub a.baseAndExponent.2 b.baseAndExponent.2) :=
        onlyNames_sub.2 ⟨hm, hk⟩
      have hsub : (Expr.sub a.baseAndExponent.2 b.baseAndExponent.2).weight =
        a.baseAndExponent.2.weight + b.baseAndExponent.2.weight + 1 := rfl
      obtain ⟨-, hnamed', hle⟩ := hagain.lighter _ hdifference (by omega)
      simp only [rebuilt, List.forall_mem_append, List.forall_mem_cons]
      refine ⟨fun f hf => ?_, ⟨hdifference, by omega⟩,
        ⟨onlyNames_pow.2 ⟨hbase, hnamed'⟩, by simp only [weight] at hle ⊢; omega⟩, by simp⟩
      obtain ⟨hnf, hlef⟩ := scaledNumerators_lighter hna f hf
      exact ⟨hnf, by omega⟩
  | pow a b =>
      cases a with
      | pow base m =>
          obtain ⟨hna, hnb⟩ := onlyNames_pow.1 hnamed
          obtain ⟨hbase, hm⟩ := onlyNames_pow.1 hna
          have hweight : (Expr.pow (.pow base m) b).weight =
            base.weight + m.weight + 1 + b.weight + 1 := rfl
          have hproduct : Named (Expr.mul m b) := onlyNames_mul.2 ⟨hm, hnb⟩
          have hmul : (Expr.mul m b).weight = m.weight + b.weight := rfl
          obtain ⟨-, hnamed', hle⟩ := hagain.lighter _ hproduct (by omega)
          simp only [rebuilt, List.forall_mem_cons]
          exact ⟨⟨hproduct, by omega⟩,
            ⟨onlyNames_pow.2 ⟨hbase, hnamed'⟩, by simp only [weight] at hle ⊢; omega⟩, by simp⟩
      | _ => simp [rebuilt]
  | _ => simp [rebuilt]

/-! ### The recursion of the rules -/

/-- Simplification simplifies what it rebuilds. -/
theorem simplifies_simplify (n : ℕ) : Simplifies (κ := κ) simplify n :=
  ⟨fun c d => foldsSums_simplifyWithin _ c d, fun _ hnamed _ => simplified_simplify hnamed⟩

/-- One pass depends on the simplification of lighter trees only. -/
theorem simplifyWith_congr (hagain : Simplifies again n)
    (heq : ∀ f, Named f → f.weight < n → again f = again' f) (hnamed : Named e)
    (hn : e.weight ≤ n) : e.simplifyWith again = e.simplifyWith again' := by
  induction e using operand_induction with
  | step e ih =>
      have hsimplified : ∀ a ∈ e.operands, Simplified a (a.simplifyWith again) := fun a ha =>
        simplified_simplifyWith hagain (named_operands hnamed a ha) ((weight_operand ha).trans hn)
      have hle := weight_mapOperands_le fun a ha => (hsimplified a ha).weight_le
      have hroot : ∀ f ∈ (e.mapOperands (simplifyWith again)).rebuilt again,
          Named f ∧ f.weight < (e.mapOperands (simplifyWith again)).weight := by
        refine rebuilt_lighter hagain ?_ (named_mapOperands hnamed fun a ha =>
          (hsimplified a ha).named) (hle.trans hn)
        rw [operands_mapOperands]
        exact List.forall_mem_map.2 fun a ha => (hsimplified a ha).settled
      have hcalls : ∀ f ∈ (e.mapOperands (simplifyWith again)).rebuilt again,
          again f = again' f := fun f hf => by
        obtain ⟨hf, hlt⟩ := hroot f hf
        exact heq f hf (by omega)
      rw [simplifyWith_eq_root, simplifyRoot_congr hcalls, mapOperands_congr fun a ha =>
        ih a ha (named_operands hnamed a ha) ((weight_operand ha).trans hn), ← simplifyWith_eq_root]

/-- The bound on the number of nested passes is never felt. -/
theorem simplifyWithin_eq (n : ℕ) : ∀ e : Expr κ, Named e → e.weight ≤ n →
    simplifyWithin n e = e.simplifyWith simplify := by
  induction n using Nat.strong_induction_on with
  | _ n ih =>
      intro e hnamed hn
      cases n with
      | zero =>
          obtain ⟨c, hc⟩ := simplifyWith_of_weight_eq_zero (Nat.le_zero.1 hn)
          rw [simplifyWithin, hc, hc]
      | succ n =>
          have hagain : Simplifies (κ := κ) (simplifyWithin n) (n + 1) :=
            ⟨foldsSums_simplifyWithin n, fun a ha hlt =>
              simplified_simplifyWithin n a ha (Nat.lt_succ_iff.1 hlt)⟩
          refine simplifyWith_congr hagain (fun f hf hlt => ?_) hnamed hn
          rw [ih n n.lt_succ_self f hf (Nat.lt_succ_iff.1 hlt), simplify,
            ih f.weight hlt f hf le_rfl]

/-- **Simplification is the recursion of its rules**: an expression is simplified by simplifying
its operands and then the operation at its root, in which rebuilt trees are simplified. -/
theorem simplify_eq (hnamed : Named e) : e.simplify = e.simplifyStep simplify := by
  have pass {e : Expr κ} (hnamed : Named e) : e.simplify = e.simplifyWith simplify :=
    simplifyWithin_eq _ e hnamed le_rfl
  rw [pass hnamed, simplifyWith_eq_root,
    mapOperands_congr fun a ha => (pass (named_operands hnamed a ha)).symm, simplifyStep]

/-! ### All calls -/

/-- The measure of simplification: weight, and among expressions of one weight the size. -/
def simplifyMeasure (e : Expr κ) : ℕ ×ₗ ℕ := toLex (e.weight, e.size)

theorem simplifyCalls_decrease (hnamed : Named e) :
    ∀ f ∈ e.simplifyCalls simplify, Named f ∧ f.simplifyMeasure < e.simplifyMeasure := by
  refine List.forall_mem_append.2 ⟨fun a ha => ⟨named_operands hnamed a ha, ?_⟩, ?_⟩
  · rw [simplifyMeasure, simplifyMeasure, Prod.Lex.toLex_lt_toLex]
    have := weight_operand ha
    have := size_operand ha
    dsimp only
    omega
  · have hsimplified : ∀ a ∈ e.operands, Simplified a a.simplify := fun a ha =>
      simplified_simplify (named_operands hnamed a ha)
    have hle := weight_mapOperands_le fun a ha => (hsimplified a ha).weight_le
    have hlighter := rebuilt_lighter (simplifies_simplify _)
      (e := e.mapOperands simplify) (by
        rw [operands_mapOperands]
        exact List.forall_mem_map.2 fun a ha => (hsimplified a ha).settled)
      (named_mapOperands hnamed fun a ha => (hsimplified a ha).named) le_rfl
    intro f hf
    obtain ⟨hf, hlt⟩ := hlighter f hf
    refine ⟨hf, ?_⟩
    rw [simplifyMeasure, simplifyMeasure, Prod.Lex.toLex_lt_toLex]
    exact .inl (hlt.trans_le hle)

/-- Induction along the calls of simplification. -/
theorem simplify_induction {P : Expr κ → Prop}
    (step : ∀ e, Named e → (∀ f ∈ e.simplifyCalls simplify, P f) → P e) (hnamed : Named e) :
    P e := by
  induction e using (InvImage.wf simplifyMeasure wellFounded_lt).induction with
  | _ e ih =>
      refine step e hnamed fun f hf => ?_
      obtain ⟨hf, hlt⟩ := simplifyCalls_decrease hnamed f hf
      exact ih f hlt hf

end Exact

end Reckoner.Expr
