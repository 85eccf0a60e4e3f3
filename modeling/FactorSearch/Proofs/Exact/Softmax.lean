import Mathlib
import FactorSearch.Proofs.Exact.Scalar
import FactorSearch.Proofs.Policy.Masking

/-!
# Softmax in exact arithmetic

Moving the scores does not change their weights, so whatever the largest score is taken from, the
weights are the exponentials over their sum.  The derivatives of the weights, of the logarithm of
one weight, and of the entropy follow from that form.
-/

set_option autoImplicit false

namespace FactorSearch

instance : Scalar.NullQuotient ℝ where
  not_lt x := by rw [Scalar.lt_real, Scalar.zero_real, zero_div, decide_eq_false (lt_irrefl 0)]

namespace Softmax

section Share

variable {ι : Type} [Fintype ι]

/-- The sum of the exponentials of the admitted scores. -/
noncomputable def partition (admitted : ι → Bool) (z : ι → ℝ) : ℝ :=
  ∑ i, if admitted i then Real.exp (z i) else 0

/-- The weights of the admitted scores, in proportion to their exponentials. -/
noncomputable def share (admitted : ι → Bool) (z : ι → ℝ) (i : ι) : ℝ :=
  (if admitted i then Real.exp (z i) else 0) / partition admitted z

variable (admitted : ι → Bool) (z : ι → ℝ)

theorem share_of_not (i : ι) (out : admitted i = false) : share admitted z i = 0 := by
  rw [share, out, if_neg Bool.false_ne_true, zero_div]

omit [Fintype ι] in
theorem power_nonneg (i : ι) : 0 ≤ if admitted i then Real.exp (z i) else 0 := by
  split
  · exact (Real.exp_pos _).le
  · exact le_rfl

theorem partition_nonneg : 0 ≤ partition admitted z :=
  Finset.sum_nonneg fun i _ => power_nonneg admitted z i

theorem partition_pos (i : ι) (inside : admitted i = true) : 0 < partition admitted z := by
  apply Finset.sum_pos' fun j _ => power_nonneg admitted z j
  refine ⟨i, Finset.mem_univ i, ?_⟩
  rw [if_pos inside]
  exact Real.exp_pos _

theorem share_nonneg (i : ι) : 0 ≤ share admitted z i :=
  div_nonneg (power_nonneg admitted z i) (partition_nonneg admitted z)

theorem share_pos_iff (i : ι) : 0 < share admitted z i ↔ admitted i = true := by
  constructor
  · intro positive
    cases inside : admitted i with
    | true => rfl
    | false => exact absurd (share_of_not admitted z i inside) positive.ne'
  · intro inside
    rw [share, if_pos inside]
    exact div_pos (Real.exp_pos _) (partition_pos admitted z i inside)

theorem sum_share (i : ι) (inside : admitted i = true) : ∑ j, share admitted z j = 1 := by
  have total := (partition_pos admitted z i inside).ne'
  simp only [share, ← Finset.sum_div]
  exact div_self total

theorem share_shift (shift : ℝ) (i : ι) :
    share admitted (fun j => z j - shift) i = share admitted z i := by
  have moved : ∀ j, (if admitted j then Real.exp (z j - shift) else 0) =
      (if admitted j then Real.exp (z j) else 0) / Real.exp shift := by
    intro j
    split
    · exact Real.exp_sub _ _
    · exact (zero_div _).symm
  simp only [share, partition, moved, ← Finset.sum_div]
  exact div_div_div_cancel_right₀ (Real.exp_pos shift).ne' _ _

variable {admitted z} in
theorem share_congr {w : ι → ℝ} (agree : ∀ i, admitted i = true → z i = w i) :
    share admitted z = share admitted w := by
  have powers : ∀ i, (if admitted i then Real.exp (z i) else 0) =
      if admitted i then Real.exp (w i) else 0 := by
    intro i
    split
    · rename_i inside
      rw [agree i inside]
    · rfl
  funext i
  rw [share, share, partition, partition, powers]
  simp only [powers]

/-! ## Derivatives -/

variable {z : ℝ → ι → ℝ} {z' : ι → ℝ} {x₀ : ℝ}

theorem hasDerivAt_partition (moves : HasDerivAt z z' x₀) :
    HasDerivAt (fun x => partition admitted (z x))
      (∑ i, if admitted i then Real.exp (z x₀ i) * z' i else 0) x₀ := by
  apply HasDerivAt.fun_sum
  intro i _
  split
  · exact (hasDerivAt_pi.mp moves i).exp
  · exact hasDerivAt_const x₀ 0

/-- The mean of a change of the scores under their weights. -/
noncomputable def drift (admitted : ι → Bool) (z z' : ι → ℝ) : ℝ := ∑ i, share admitted z i * z' i

theorem partition_mul_drift (i : ι) (inside : admitted i = true) (w w' : ι → ℝ) :
    partition admitted w * drift admitted w w' =
      ∑ j, if admitted j then Real.exp (w j) * w' j else 0 := by
  have total := (partition_pos admitted w i inside).ne'
  rw [drift, Finset.mul_sum]
  apply Finset.sum_congr rfl
  intro j _
  rw [share, ← mul_assoc, mul_div_cancel₀ _ total, ite_mul, zero_mul]

/-- A weight changes with the distance of its score's change from the mean change. -/
theorem hasDerivAt_share (i : ι) (inside : admitted i = true) (moves : HasDerivAt z z' x₀) :
    HasDerivAt (fun x => share admitted (z x))
      (fun j => share admitted (z x₀) j * (z' j - drift admitted (z x₀) z')) x₀ := by
  rw [hasDerivAt_pi]
  intro j
  have total := (partition_pos admitted (z x₀) i inside).ne'
  have below := hasDerivAt_partition admitted moves
  rw [← partition_mul_drift admitted i inside] at below
  have above : HasDerivAt (fun x => if admitted j then Real.exp (z x j) else 0)
      ((if admitted j then Real.exp (z x₀ j) else 0) * z' j) x₀ := by
    split
    · exact (hasDerivAt_pi.mp moves j).exp
    · rw [zero_mul]
      exact hasDerivAt_const x₀ 0
  refine (above.div below total).congr_deriv ?_
  rw [share]
  field_simp

theorem hasDerivAt_log_share (i : ι) (inside : admitted i = true) (moves : HasDerivAt z z' x₀) :
    HasDerivAt (fun x => Real.log (share admitted (z x) i))
      (z' i - drift admitted (z x₀) z') x₀ := by
  have positive := ((share_pos_iff admitted (z x₀) i).mpr inside).ne'
  refine ((hasDerivAt_pi.mp (hasDerivAt_share admitted i inside moves) i).log positive).congr_deriv
    ?_
  exact mul_div_cancel_left₀ _ positive

noncomputable def shareEntropy (admitted : ι → Bool) (z : ι → ℝ) : ℝ :=
  ∑ i, Real.negMulLog (share admitted z i)

theorem sum_negMulLog (p : ι → ℝ) :
    ∑ i, Real.negMulLog (p i) = -∑ i, p i * Real.log (p i) := by
  simp only [Real.negMulLog, neg_mul, Finset.sum_neg_distrib]

theorem hasDerivAt_shareEntropy (i : ι) (inside : admitted i = true)
    (moves : HasDerivAt z z' x₀) :
    HasDerivAt (fun x => shareEntropy admitted (z x))
      (-∑ j, z' j * (share admitted (z x₀) j *
        (Real.log (share admitted (z x₀) j) + shareEntropy admitted (z x₀)))) x₀ := by
  set p := share admitted (z x₀) with weights
  set mean := drift admitted (z x₀) z' with average
  have each : ∀ j, HasDerivAt (fun x => Real.negMulLog (share admitted (z x) j))
      ((-Real.log (p j) - 1) * (p j * (z' j - mean))) x₀ := by
    intro j
    cases admits : admitted j with
    | false =>
      -- the weight stays at zero, where the logarithm has no derivative
      have none : ∀ x, share admitted (z x) j = 0 := fun x => share_of_not admitted (z x) j admits
      simp only [weights, none, zero_mul, mul_zero]
      exact hasDerivAt_const x₀ _
    | true =>
      have positive := ((share_pos_iff admitted (z x₀) j).mpr admits).ne'
      exact (Real.hasDerivAt_negMulLog positive).comp x₀
        (hasDerivAt_pi.mp (hasDerivAt_share admitted i inside moves) j)
  refine (HasDerivAt.fun_sum fun j _ => each j).congr_deriv ?_
  have whole : ∑ j, p j = 1 := sum_share admitted (z x₀) i inside
  have entropy : shareEntropy admitted (z x₀) = -∑ j, p j * Real.log (p j) := sum_negMulLog p
  calc ∑ j, (-Real.log (p j) - 1) * (p j * (z' j - mean))
      = -∑ j, z' j * (p j * Real.log (p j)) + mean * ∑ j, p j * Real.log (p j) -
          (∑ j, p j * z' j - mean * ∑ j, p j) := by
        simp only [Finset.mul_sum, ← Finset.sum_sub_distrib, ← Finset.sum_neg_distrib,
          ← Finset.sum_add_distrib]
        exact Finset.sum_congr rfl fun j _ => by ring
    _ = -∑ j, z' j * (p j * Real.log (p j)) - shareEntropy admitted (z x₀) * ∑ j, p j * z' j := by
        rw [whole, entropy, average, drift]
        ring
    _ = -∑ j, z' j * (p j * (Real.log (p j) + shareEntropy admitted (z x₀))) := by
        simp only [Finset.mul_sum, ← Finset.sum_sub_distrib, ← Finset.sum_neg_distrib]
        exact Finset.sum_congr rfl fun j _ => by ring

/-! ## The cost of a choice -/

section Choice

variable [DecidableEq ι]

/-- What a choice costs by its scores: its own logarithm, and less the more even the weights are. -/
noncomputable def choiceCost (admitted : ι → Bool) (index : ι) (advantage entropyScale : ℝ)
    (z : ι → ℝ) : ℝ :=
  -(advantage * Real.log (share admitted z index)) - entropyScale * shareEntropy admitted z

noncomputable def choiceSlope (admitted : ι → Bool) (index : ι) (advantage entropyScale : ℝ)
    (z : ι → ℝ) (i : ι) : ℝ :=
  advantage * (share admitted z i - if i = index then 1 else 0) +
    entropyScale * (share admitted z i *
      (Real.log (share admitted z i) + shareEntropy admitted z))

theorem pull_sum (change p bonus : ι → ℝ) (index : ι) (advantage entropyScale : ℝ) :
    -(advantage * (change index - ∑ i, p i * change i)) -
        entropyScale * -∑ i, change i * bonus i =
      ∑ i, change i * (advantage * (p i - if i = index then 1 else 0) +
        entropyScale * bonus i) := by
  have picked : ∑ i, change i * (if i = index then 1 else 0) = change index := by
    simp only [mul_ite, mul_one, mul_zero, Finset.sum_ite_eq', Finset.mem_univ, if_true]
  calc -(advantage * (change index - ∑ i, p i * change i)) -
        entropyScale * -∑ i, change i * bonus i
      = advantage * ∑ i, p i * change i -
          advantage * ∑ i, change i * (if i = index then 1 else 0) +
          entropyScale * ∑ i, change i * bonus i := by
        rw [picked]
        ring
    _ = ∑ i, change i * (advantage * (p i - if i = index then 1 else 0) +
          entropyScale * bonus i) := by
        rw [Finset.mul_sum, Finset.mul_sum, Finset.mul_sum, ← Finset.sum_sub_distrib,
          ← Finset.sum_add_distrib]
        exact Finset.sum_congr rfl fun i _ => by ring

variable {index : ι} (inside : admitted index = true) (advantage entropyScale : ℝ)

include inside

theorem hasDerivAt_choiceCost (moves : HasDerivAt z z' x₀) :
    HasDerivAt (fun x => choiceCost admitted index advantage entropyScale (z x))
      (∑ i, z' i * choiceSlope admitted index advantage entropyScale (z x₀) i) x₀ := by
  have logarithm := hasDerivAt_log_share admitted index inside moves
  have entropy := hasDerivAt_shareEntropy admitted index inside moves
  refine ((logarithm.const_mul advantage).neg.sub (entropy.const_mul entropyScale)).congr_deriv ?_
  exact pull_sum z' _ _ index advantage entropyScale

theorem choiceSlope_of_not (w : ι → ℝ) {i : ι} (out : admitted i = false) :
    choiceSlope admitted index advantage entropyScale w i = 0 := by
  have other : i ≠ index := by
    rintro rfl
    rw [inside] at out
    contradiction
  rw [choiceSlope, share_of_not admitted w i out, if_neg other]
  ring

/-- The pulls on the scores cancel, and so do the distances from the entropy. -/
theorem sum_choiceSlope (w : ι → ℝ) :
    ∑ i, choiceSlope admitted index advantage entropyScale w i = 0 := by
  have whole := sum_share admitted w index inside
  have entropy : shareEntropy admitted w =
      -∑ i, share admitted w i * Real.log (share admitted w i) := sum_negMulLog _
  simp only [choiceSlope, Finset.sum_add_distrib, ← Finset.mul_sum, Finset.sum_sub_distrib, mul_add,
    ← Finset.sum_mul, whole, Finset.sum_ite_eq', Finset.mem_univ, if_true]
  rw [entropy]
  ring

end Choice

end Share

/-! ## Weights of vectors -/

variable {n : Nat}

theorem get_weights (x : Vec ℝ n) (i : Fin n) :
    (weights x).get i = share (fun _ => true) x.get i := by
  rw [← share_shift _ _ (Fin.foldl n (fun top i => Scalar.max top (x.get i)) (-Scalar.infinity))]
  simp only [weights, Vec.get_ofFn, Tensor.sum_real, Scalar.exp_real, share, partition, if_true]

theorem masked_real (x : Vec ℝ n) (mask : Vector Bool n) :
    masked x mask = .ok (Vector.ofFn (share mask.get x.get)) := by
  have moved : share mask.get x.get = fun i =>
      share mask.get (fun i => x.get i - allowedMaximum x mask) i := by
    funext i
    exact (share_shift _ _ _ _).symm
  simp only [masked, Scalar.isFinite_real, if_true, moved, Vec.get_ofFn, Tensor.sum_real,
    Scalar.exp_real, Scalar.zero_real, share, partition]

theorem entropy_real (p : Vec ℝ n) (nonneg : ∀ i, 0 ≤ p.get i) :
    entropy p = ∑ i, Real.negMulLog (p.get i) := by
  have term : ∀ (total : ℝ) (i : Fin n),
      (if 0 < p.get i then total + p.get i * Real.log (p.get i) else total) =
        total + p.get i * Real.log (p.get i) := by
    intro total i
    split
    · rfl
    · rename_i other
      rw [le_antisymm (not_lt.mp other) (nonneg i), zero_mul, add_zero]
  have summed := Tensor.sum_real fun i => p.get i * Real.log (p.get i)
  simp only [Tensor.sum, Scalar.zero_real] at summed
  rw [sum_negMulLog]
  simp only [entropy, Scalar.zero_real, Scalar.lt_real, Scalar.log_real, decide_eq_true_eq, term,
    summed]

theorem logWeight_real (p : Vec ℝ n) (i : Fin n) : logWeight p i.val = Real.log (p.get i) := by
  rw [logWeight, dif_pos i.isLt]
  rfl

end Softmax

end FactorSearch
