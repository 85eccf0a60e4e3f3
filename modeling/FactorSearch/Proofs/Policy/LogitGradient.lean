import Mathlib
import FactorSearch.Policy.Gradient
import FactorSearch.Proofs.Policy.MaskedWeights

/-!
# The gradient of the scores

What a step costs is a smooth function of the scores of its actions, so that its slopes along lines
are its gradient.  In exact arithmetic finite scores have finite weights, and the gradient of the
scores as computed is that gradient.  It is zero outside the mask and adds up to zero: neither the
scores beyond the mask nor a common shift of all scores change the cost.
-/

set_option autoImplicit false

namespace FactorSearch

/-- Slopes along all lines are the gradient of a function that has one. -/
theorem hasGradientAt_of_lines {n : Nat} {f : EuclideanSpace ℝ (Fin n) → ℝ}
    {g z : EuclideanSpace ℝ (Fin n)} (smooth : DifferentiableAt ℝ f z)
    (lines : ∀ v, HasLineDerivAt ℝ f (∑ i, v i * g i) z v) : HasGradientAt f g z := by
  have derivative : fderiv ℝ f z = InnerProductSpace.toDual ℝ _ g := by
    ext v
    rw [(smooth.hasFDerivAt.hasLineDerivAt v).unique (lines v),
      InnerProductSpace.toDual_apply_apply, PiLp.inner_apply]
    exact Finset.sum_congr rfl fun i _ => rfl
  rw [hasGradientAt_iff_hasFDerivAt, ← derivative]
  exact smooth.hasFDerivAt

namespace Softmax

variable {n : Nat}

/-! ## The cost as a function of the scores -/

section Cost

theorem differentiable_power (admitted : Fin n → Bool) (i : Fin n) :
    Differentiable ℝ fun z : EuclideanSpace ℝ (Fin n) =>
      if admitted i then Real.exp (z i) else 0 := by
  split
  · fun_prop
  · fun_prop

variable {admitted : Fin n → Bool} {index : Fin n} (inside : admitted index = true)

include inside

theorem differentiable_share (i : Fin n) :
    Differentiable ℝ fun z : EuclideanSpace ℝ (Fin n) => share admitted z i := by
  have total : Differentiable ℝ fun z : EuclideanSpace ℝ (Fin n) => partition admitted z :=
    Differentiable.fun_sum fun j _ => differentiable_power admitted j
  simp only [share, div_eq_mul_inv]
  exact (differentiable_power admitted i).mul
    (total.inv fun z => (partition_pos admitted z index inside).ne')

theorem differentiable_log_share (i : Fin n) (admits : admitted i = true) :
    Differentiable ℝ fun z : EuclideanSpace ℝ (Fin n) => Real.log (share admitted z i) :=
  (differentiable_share inside i).log fun z => ((share_pos_iff admitted z i).mpr admits).ne'

theorem differentiable_shareEntropy :
    Differentiable ℝ fun z : EuclideanSpace ℝ (Fin n) => shareEntropy admitted z := by
  refine Differentiable.fun_sum fun i _ => ?_
  cases admits : admitted i with
  | true =>
    simp only [Real.negMulLog]
    exact (differentiable_share inside i).neg.mul (differentiable_log_share inside i admits)
  | false =>
    -- the weight stays at zero, where the logarithm is not smooth
    simp only [share_of_not admitted _ i admits]
    exact differentiable_const _

/-- The slopes of the cost are its gradient, as it is smooth and they are right along every line. -/
theorem hasGradientAt_choiceCost (advantage entropyScale : ℝ) (z : EuclideanSpace ℝ (Fin n)) :
    HasGradientAt
      (fun w : EuclideanSpace ℝ (Fin n) => choiceCost admitted index advantage entropyScale w)
      (WithLp.toLp 2 (choiceSlope admitted index advantage entropyScale z)) z := by
  have logarithm := differentiable_log_share inside index inside
  have entropy := differentiable_shareEntropy inside
  have smooth := (logarithm.const_mul advantage).neg.sub (entropy.const_mul entropyScale)
  refine hasGradientAt_of_lines (smooth z) fun v => ?_
  have moves : HasDerivAt (fun x : ℝ => (z + x • v).ofLp) v.ofLp 0 := by
    rw [hasDerivAt_pi]
    intro i
    simpa using ((hasDerivAt_id (0 : ℝ)).mul_const (v i)).const_add (z i)
  have slope := hasDerivAt_choiceCost admitted inside advantage entropyScale moves
  rw [zero_smul, add_zero] at slope
  exact slope

end Cost

/-! ## Exact arithmetic with missing values -/

section Exact

open Extended

theorem masked_finite (z : Fin n → ℝ) {mask : Vector Bool n} {index : Fin n}
    (inside : mask.get index = true) :
    masked (Vector.ofFn fun i => finite (z i)) mask =
      .ok (Vector.ofFn fun i => finite (share mask.get z i)) := by
  have known : ¬ Lacking (Vector.ofFn fun i => finite (z i)) mask := by
    rintro ⟨i, -, missing⟩
    rw [Vec.get_ofFn] at missing
    cases missing
  have weighed : ¬ Refused (Vector.ofFn fun i => finite (z i)) mask := by
    rintro (none | ⟨i, -, infinite⟩)
    · have refused := none index inside
      rw [Vec.get_ofFn] at refused
      cases refused
    · rw [Vec.get_ofFn, le_infinity_iff] at infinite
      cases infinite
  have all : admitted (Vector.ofFn fun i => finite (z i)) mask = mask.get := by
    funext i
    rw [admitted, Vec.get_ofFn, isFinite_finite, Bool.and_true]
  rw [masked_eq_share weighed known, all]
  simp only [Vec.get_ofFn, toReal]

theorem entropy_finite {p : Fin n → ℝ} (nonneg : ∀ i, 0 ≤ p i) :
    entropy (Vector.ofFn fun i => finite (p i)) = finite (∑ i, Real.negMulLog (p i)) := by
  have term (total : Extended) (i : Fin n) :
      (if Scalar.lt 0 (finite (p i)) then total + finite (p i) * Scalar.log (finite (p i))
        else total) = total + finite (p i * Real.log (p i)) := by
    rw [zero_eq, lt_finite]
    rcases (nonneg i).eq_or_lt with none | positive
    · rw [← none, zero_mul, Extended.add_zero, if_neg (by simp)]
    · rw [if_pos (decide_eq_true positive), log_finite positive, mul_finite]
  have summed := sum_finite fun i => p i * Real.log (p i)
  rw [Tensor.sum] at summed
  simp only [entropy, Vec.get_ofFn, term]
  rw [summed, neg_finite, sum_negMulLog]

theorem entropy_share (admitted : Fin n → Bool) (z : Fin n → ℝ) :
    entropy (Vector.ofFn fun i => finite (share admitted z i)) = finite (shareEntropy admitted z) :=
  entropy_finite (share_nonneg admitted z)

theorem logWeight_share {admitted : Fin n → Bool} (z : Fin n → ℝ) {index : Fin n}
    (inside : admitted index = true) :
    logWeight (Vector.ofFn fun i => finite (share admitted z i)) index.val =
      finite (Real.log (share admitted z index)) := by
  rw [logWeight, dif_pos index.isLt, Vector.getElem_ofFn]
  exact log_finite ((share_pos_iff admitted z index).mpr inside)

end Exact

/-- What the scores cost through their weights: the advantage times the action's negative logarithm,
less the scaled entropy. -/
def scoreCost {α : Type} [Scalar α] (mask : Vector Bool n) (action : Nat)
    (advantage entropyScale : α) (scores : Vec α n) : Result α :=
  (masked scores mask).map fun p =>
    advantage * -logWeight p action - entropyScale * entropy p

open Extended in
theorem scoreCost_finite {mask : Vector Bool n} {action : Fin n} (allowed : mask.get action = true)
    (advantage entropyScale : ℝ) (z : Fin n → ℝ) :
    scoreCost mask action.val (finite advantage) (finite entropyScale)
        (Vector.ofFn fun i => finite (z i)) =
      .ok (finite (choiceCost mask.get action advantage entropyScale z)) := by
  rw [scoreCost, masked_finite z allowed, Except.map, entropy_share, logWeight_share z allowed,
    neg_finite, mul_finite, mul_finite, sub_finite, choiceCost, mul_neg]

end Softmax

namespace Policy

open Extended Softmax

variable {s : Shape}

theorem logitGradient_finite {trace : Trace Extended s} {z : Fin s.actions → ℝ}
    (probabilities : trace.probabilities =
      Vector.ofFn fun i => finite (share trace.mask.get z i))
    {action : Fin s.actions} (allowed : trace.mask.get action = true)
    (advantage entropyScale : ℝ) :
    logitGradient trace action.val (finite advantage) (finite entropyScale) =
      Vector.ofFn fun i =>
        finite (choiceSlope trace.mask.get action advantage entropyScale z i) := by
  rw [logitGradient, Trace.entropy, probabilities, entropy_share]
  congr 1
  funext i
  dsimp only
  cases admits : trace.mask.get i with
  | false => rw [if_neg Bool.false_ne_true, zero_eq, choiceSlope_of_not _ allowed _ _ _ admits]
  | true =>
    have positive := (share_pos_iff trace.mask.get z i).mpr admits
    have indicator : (if i.val = action.val then (1 : Extended) else 0) =
        finite (if i = action then 1 else 0) := by
      simp only [Fin.val_inj, one_eq, zero_eq]
      split
      · rfl
      · rfl
    rw [if_pos rfl, Vec.get_ofFn, zero_eq, lt_finite, if_pos (decide_eq_true positive), ← zero_eq,
      indicator, log_finite positive, choiceSlope]
    simp only [sub_finite, mul_finite, add_finite, mul_assoc]

/-- On a trace that holds the weights of finite scores under its mask, the gradient of the scores is
the gradient of their cost, for any allowed action and any scales.  It is zero on the actions that
are not allowed, and adds up to zero. -/
theorem logitGradient_exact (trace : Trace Extended s)
    (scores : EuclideanSpace ℝ (Fin s.actions))
    (weighed : masked (Vector.ofFn fun i => finite (scores i)) trace.mask = .ok trace.probabilities)
    (action : Fin s.actions) (allowed : trace.mask.get action = true)
    (advantage entropyScale : ℝ) :
    ∃ (cost : EuclideanSpace ℝ (Fin s.actions) → ℝ) (gradient : EuclideanSpace ℝ (Fin s.actions)),
      (∀ z, scoreCost trace.mask action.val (finite advantage) (finite entropyScale)
        (Vector.ofFn fun i => finite (z i)) = .ok (finite (cost z))) ∧
      logitGradient trace action.val (finite advantage) (finite entropyScale) =
        Vector.ofFn (fun i => finite (gradient i)) ∧
      HasGradientAt cost gradient scores ∧
      (∀ i, trace.mask.get i = false → gradient i = 0) ∧ ∑ i, gradient i = 0 := by
  rw [masked_finite _ allowed] at weighed
  exact ⟨fun z => choiceCost trace.mask.get action advantage entropyScale z,
    WithLp.toLp 2 (choiceSlope trace.mask.get action advantage entropyScale scores),
    fun z => scoreCost_finite allowed advantage entropyScale z,
    logitGradient_finite (Except.ok.inj weighed).symm allowed advantage entropyScale,
    hasGradientAt_choiceCost allowed advantage entropyScale scores,
    fun i out => choiceSlope_of_not _ allowed advantage entropyScale scores out,
    sum_choiceSlope _ allowed advantage entropyScale scores⟩

noncomputable def tilted : Trace Extended ⟨2, 1, 1, 1, 0⟩ where
  length := 0
  inputs := #v[2]
  depth := 0
  memory := Tensor.tabulate fun _ _ => 0
  queryInput := #v[0]
  query := #v[0]
  keys := Tensor.tabulate fun _ _ => 0
  values := Tensor.tabulate fun _ _ => 0
  attention := Tensor.tabulate fun _ _ => 1
  context := #v[0]
  tower := []
  top := #v[0]
  mask := #v[true, true, false]
  probabilities := #v[finite (1 / 4), finite (3 / 4), finite 0]

theorem tilted_gradient :
    tilted.mask.get 1 = true ∧
    masked (Vector.ofFn fun i => finite (![0, Real.log 3, 5] i)) tilted.mask =
      .ok tilted.probabilities ∧
    ∃ (cost : EuclideanSpace ℝ (Fin 3) → ℝ) (gradient : EuclideanSpace ℝ (Fin 3)),
      (∀ z, scoreCost tilted.mask 1 (finite 2) (finite (1 / 2))
        (Vector.ofFn fun i => finite (z i)) = .ok (finite (cost z))) ∧
      logitGradient tilted 1 (finite 2) (finite (1 / 2)) =
        Vector.ofFn (fun i => finite (gradient i)) ∧
      HasGradientAt cost gradient (WithLp.toLp 2 ![0, Real.log 3, 5]) ∧
      gradient 2 = 0 ∧ ∑ i, gradient i = 0 := by
  have allowed : tilted.mask.get 1 = true := rfl
  have mask : tilted.mask.get = ![true, true, false] := by
    funext i
    fin_cases i <;> rfl
  have total : partition ![true, true, false] ![0, Real.log 3, 5] = 4 := by
    have three : Real.exp (Real.log 3) = 3 := Real.exp_log (by norm_num)
    have out : (![true, true, false] : Fin 3 → Bool) 2 = false := rfl
    rw [partition, Fin.sum_univ_three]
    norm_num [three, out]
  have weights (i : Fin 3) :
      share tilted.mask.get ![0, Real.log 3, 5] i = ![1 / 4, 3 / 4, 0] i := by
    rw [mask, share, total]
    fin_cases i
    · simp
    · simp [Real.exp_log]
    · simp
  have weighed : masked (Vector.ofFn fun i => finite (![0, Real.log 3, 5] i)) tilted.mask =
      .ok tilted.probabilities := by
    rw [masked_finite _ allowed]
    simp only [weights]
    rfl
  obtain ⟨cost, gradient, costs, computed, slope, outside, balanced⟩ :=
    logitGradient_exact tilted (WithLp.toLp 2 ![0, Real.log 3, 5]) weighed 1 allowed 2 (1 / 2)
  exact ⟨allowed, weighed, cost, gradient, costs, computed, slope, outside 2 rfl, balanced⟩

end Policy

end FactorSearch
