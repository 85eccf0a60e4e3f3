import FactorSearch.Proofs.Policy.AdamEstimates
import FactorSearch.Proofs.Policy.GradientNorm
import FactorSearch.Training.Learner

/-!
# Updates with a limited gradient

In exact arithmetic with missing and infinite values.  An update gives up on a loss or a gradient
that is not finite, and then the learner stays as it is.  Otherwise it is one step of the optimizer,
and what the step is given is the gradient, shortened by a common factor to the length allowed if it
was longer.
-/

set_option autoImplicit false

namespace FactorSearch

namespace Extended

theorem exists_real_of_lt {x : Extended} {a b : ℝ} (above : Scalar.lt (finite a) x = true)
    (below : Scalar.lt x (finite b) = true) : ∃ r, x = finite r ∧ a < r ∧ r < b := by
  have low : (a : EReal) < place x := ((Scalar.Ordered.lt_iff ..).mp above).2.2
  have high : place x < (b : EReal) := ((Scalar.Ordered.lt_iff ..).mp below).2.2
  cases x with
  | finite r => exact ⟨r, rfl, EReal.coe_lt_coe_iff.mp low, EReal.coe_lt_coe_iff.mp high⟩
  | infinite s =>
    cases s with
    | true => exact absurd low not_lt_bot
    | false => exact absurd high not_top_lt
  | missing => cases ((Scalar.Ordered.lt_iff ..).mp above).2.1

end Extended

variable {s : Policy.Shape}

namespace Training

open Policy (Parameters)

/-- What a step is given in place of a gradient: a share of it that is as long as allowed, or all of
it if that is not too long. -/
structure Shortened (maxNorm : Extended) (total applied : Parameters ℝ s) : Prop where
  share : ∃ factor : ℝ, 0 < factor ∧ factor ≤ 1 ∧ ∀ c, applied.get c = total.get c * factor
  bounded : Scalar.le (.finite applied.length) maxNorm = true
  whole : Scalar.le (.finite total.length) maxNorm = true → applied = total
  cut : Scalar.le (.finite total.length) maxNorm = false → .finite applied.length = maxNorm

theorem clip_embed {maxNorm : Extended} (positive : Scalar.lt 0 maxNorm = true)
    (total : Parameters ℝ s) :
    ∃ applied, clip maxNorm total.embed = applied.embed ∧ Shortened maxNorm total applied := by
  rw [Extended.zero_eq] at positive
  rw [clip, total.norm_embed]
  cases long : Scalar.lt maxNorm (.finite total.length) with
  | false =>
    have present : ¬ Scalar.isNaN maxNorm = true := by
      rw [Bool.not_eq_true]
      exact ((Scalar.Ordered.lt_iff ..).mp positive).2.1
    have within : Scalar.le (.finite total.length) maxNorm = true :=
      ((Scalar.Ordered.lt_eq_false_iff _ rfl).mp long).resolve_left present
    exact ⟨total, if_neg Bool.false_ne_true,
      ⟨1, one_pos, le_rfl, fun c => (mul_one _).symm⟩, within, fun _ => rfl,
      fun long => absurd (within.symm.trans long) nofun⟩
  | true =>
    obtain ⟨m, rfl, positive, long⟩ := Extended.exists_real_of_lt positive long
    have longer : 0 < total.length := positive.trans long
    have share : 0 < m / total.length := div_pos positive longer
    have multiple (c : Policy.Coordinate s) :
        (total.scale (m / total.length)).get c = total.get c * (m / total.length) :=
      Parameters.get_ofFn ..
    have cut : (total.scale (m / total.length)).length = m := by
      rw [Parameters.length_scale share.le multiple, mul_div_cancel₀ m longer.ne']
    refine ⟨total.scale (m / total.length), ?_,
      ⟨_, share, (div_le_one longer).mpr long.le, multiple⟩, ?_, ?_, fun _ => by rw [cut]⟩
    · rw [if_pos rfl, Extended.div_finite m longer.ne', Parameters.embed_scale]
    · rw [cut, Extended.le_finite, decide_eq_true_iff]
    · intro short
      rw [Extended.le_finite, decide_eq_true_iff] at short
      exact absurd short (not_le.mpr long)

namespace Learner

/-- An update either finds a loss or a gradient that is not finite and leaves the parameters and the
optimizer as they are, or makes one step of the optimizer with the gradient, shortened if it is too
long. -/
theorem update_all_or_nothing (learner : Learner Extended s) (settings : TrainingSettings Extended)
    (positive : Scalar.lt 0 settings.maxGradientNorm = true) (baseline : Extended)
    (batch : List (Episode Extended s)) :
    let lost := loss settings.entropyCoefficient baseline batch
    let gradients := gradient settings.entropyCoefficient baseline learner.parameters batch
    let updated := learner.update settings baseline batch
    updated.1 = lost ∧
      ((Scalar.isFinite lost = false ∨ Scalar.isFinite gradients.norm = false) ∧
          updated.2 = learner ∨
        Scalar.isFinite lost = true ∧
          ∃ total applied : Parameters ℝ s,
            gradients = total.embed ∧ gradients.norm = .finite total.length ∧
              Shortened settings.maxGradientNorm total applied ∧
                (updated.2.optimizer, updated.2.parameters) =
                  learner.optimizer.step learner.parameters applied.embed ∧
                Policy.Adam.Stepped applied.embed learner.parameters updated.2.parameters
                  learner.optimizer updated.2.optimizer) := by
  intro lost gradients updated
  by_cases known : (Scalar.isFinite lost && Scalar.isFinite gradients.norm) = true
  · have made : updated =
        (lost, learner.apply (clip settings.maxGradientNorm gradients)) := if_pos known
    rw [Bool.and_eq_true] at known
    obtain ⟨total, real⟩ := Parameters.exists_embed known.2
    obtain ⟨applied, cut, shortened⟩ := clip_embed positive total
    rw [← real, cut] at made
    rw [made]
    exact ⟨rfl, Or.inr ⟨known.1, total, applied, real.symm, real ▸ total.norm_embed, shortened,
      rfl, Policy.Adam.stepped_step ..⟩⟩
  · have kept : updated = (lost, learner) := if_neg known
    rw [Bool.and_eq_true, not_and_or, Bool.not_eq_true, Bool.not_eq_true] at known
    rw [kept]
    exact ⟨rfl, Or.inl ⟨known, rfl⟩⟩

end Learner

/-! ## A gradient that is too long -/

abbrev evenShape : Policy.Shape := ⟨1, 1, 1, 1, 0⟩

/-- A forward pass without weights: both actions have the same probability. -/
noncomputable def evenTrace : Policy.Trace Extended evenShape where
  length := 0
  inputs := #v[1]
  depth := 0
  memory := Tensor.tabulate fun _ _ => .finite 0
  queryInput := Vector.ofFn fun _ => .finite 0
  query := Vector.ofFn fun _ => .finite 0
  keys := Tensor.tabulate fun _ _ => .finite 0
  values := Tensor.tabulate fun _ _ => .finite 0
  attention := Tensor.tabulate fun _ _ => .finite 1
  context := Vector.ofFn fun _ => .finite 0
  tower := []
  top := Vector.ofFn fun _ => .finite 0
  mask := Vector.ofFn fun _ => true
  probabilities := Vector.ofFn fun _ => .finite (1 / 2)

noncomputable def evenEpisode (reward : Extended) : Episode Extended evenShape where
  sample := ⟨.rejected (.unclosed 0), [⟨evenTrace, 0, .finite (-Real.log 2)⟩]⟩
  verdict := .invalid (.unclosed 0) reward

theorem entropy_even : evenTrace.entropy = .finite (Real.log 2) := by
  simp [Policy.Trace.entropy, Softmax.entropy, evenTrace, Fin.foldl_succ, Scalar.log,
    not_lt.mpr zero_le_two]
  ring

theorem size_even (reward : Extended) : batchSize [evenEpisode reward] = Extended.finite 1 := by
  simp [batchSize]

theorem scores_even (advantage : ℝ) :
    Policy.logitGradient evenTrace 0 (.finite advantage) (.finite 0) =
      Vector.ofFn fun i => .finite (if i = 0 then -(advantage / 2) else advantage / 2) := by
  simp only [Policy.logitGradient, entropy_even]
  refine congrArg Vector.ofFn (funext fun i => ?_)
  fin_cases i
  · simp [evenTrace, Scalar.log, not_lt.mpr zero_le_two]
    ring
  · simp [evenTrace, Scalar.log, not_lt.mpr zero_le_two]
    ring

/-- Without weights only the biases of the output have a derivative. -/
theorem derivative_even (x : Fin 2 → ℝ) (c : Policy.Coordinate evenShape) :
    (Policy.backward .zero evenTrace (Vector.ofFn fun i => .finite (x i))).derivative #[] c =
      .finite (match c with | .outputBias a => x a | _ => 0) := by
  have zeros : (Parameters.zero : Parameters Extended evenShape) = .ofFn fun _ => .finite 0 := by
    rw [Parameters.zero, Extended.zero_eq]
  have scale : Policy.attentionScale (α := Extended) evenShape = .finite 1 := by
    simp [Policy.attentionScale, Extended.sqrt_finite, Extended.div_finite]
  rw [zeros]
  cases c with
  | layerWeight l | layerBias l => exact l.elim0
  | _ =>
    simp [Policy.Backward.derivative, Policy.backward, Parameters.ofFn, evenTrace, Tensor.mulVec,
      Tensor.dot, Tensor.add, Tensor.mulTranspose, Tensor.transposeMul, Policy.descend, scale,
      Extended.sum_finite]

noncomputable def evenGradient : Parameters ℝ evenShape :=
  .ofFn fun | .outputBias a => if a = 0 then -4 else 4 | _ => 0

theorem gradient_even :
    gradient (.finite 0) (.finite 0) .zero [evenEpisode (.finite 8)] = evenGradient.embed := by
  have advantage : ((evenEpisode (.finite 8)).reward - .finite 0) / .finite 1 = .finite 8 := by
    simp [Episode.reward, evenEpisode, Assessment.reward, Extended.div_finite]
  have entropyScale : Extended.finite 0 / .finite 1 = .finite 0 := by
    rw [Extended.div_finite 0 one_ne_zero, zero_div]
  have decisions : (evenEpisode (.finite 8)).sample.decisions =
      [⟨evenTrace, 0, .finite (-Real.log 2)⟩] := rfl
  refine Parameters.ext_get _ _ fun c => ?_
  simp only [gradient, List.foldl_cons, List.foldl_nil, size_even, advantage, entropyScale,
    decisions, scores_even, Policy.accumulate, Parameters.get_ofFn]
  refine (congrArg (Parameters.zero.get c + ·) (derivative_even _ c)).trans ?_
  rw [Parameters.zero, Parameters.get_ofFn, Extended.zero_eq, Extended.add_finite, zero_add,
    evenGradient, Parameters.embed, Parameters.get_ofFn, Parameters.get_ofFn]
  cases c with
  | outputBias a => norm_num
  | _ => rfl

theorem loss_even (reward : Extended) :
    loss (.finite 0) (.finite 0) [evenEpisode reward] =
      .finite 0 - (reward - .finite 0) * .finite (-Real.log 2) / .finite 1 - .finite 0 := by
  simp only [loss, List.foldl_cons, List.foldl_nil, size_even, Sampling.Sample.logProbability,
    Sampling.Sample.entropy]
  simp [evenEpisode, Episode.reward, Assessment.reward, entropy_even, Scalar.total,
    Extended.div_finite]

theorem loss_even_finite :
    Scalar.isFinite (loss (.finite 0) (.finite 0) [evenEpisode (.finite 8)]) = true := by
  rw [loss_even]
  simp [Extended.div_finite]

theorem loss_even_missing :
    Scalar.isFinite (loss (.finite 0) (.finite 0) [evenEpisode .missing]) = false := by
  rw [loss_even]
  rfl

theorem length_even : evenGradient.length = √32 := by
  have squares : ∑ c, evenGradient.get c ^ 2 = 32 := by
    rw [Fintype.sum_eq_add (.outputBias 0) (.outputBias 1) (by decide)]
    · simp only [evenGradient, Parameters.get_ofFn]
      norm_num
    · rintro c ⟨first, second⟩
      rw [evenGradient, Parameters.get_ofFn]
      cases c with
      | outputBias a =>
        fin_cases a
        · exact absurd rfl first
        · exact absurd rfl second
      | _ => exact zero_pow two_ne_zero
  rw [Parameters.length, squares]

theorem get_zero_parameters (c : Policy.Coordinate s) :
    (Parameters.zero : Parameters Extended s).get c = .finite 0 :=
  (Parameters.get_ofFn ..).trans Extended.zero_eq

theorem estimate_of_one {decay : ℝ} (below : decay < 1) (x : ℝ) :
    (.finite decay * .finite 0 + (1 - .finite decay) * .finite x) /
      (1 - Scalar.zpower (.finite decay) 1) = Extended.finite x := by
  have room : 1 - decay ≠ 0 := (sub_pos.mpr below).ne'
  have once : Scalar.zpower (Extended.finite decay) 1 = .finite decay := by
    simp only [Scalar.zpower, Scalar.power, Extended.one_eq, Extended.mul_finite, one_mul]
  rw [once, Extended.one_eq, Extended.sub_finite, Extended.mul_finite, Extended.mul_finite,
    Extended.add_finite, Extended.div_finite _ room, mul_zero, zero_add,
    mul_div_cancel_left₀ x room]

theorem get_first_step (rate : ℝ) {x : ℝ} {p : Parameters Extended s} {c : Policy.Coordinate s}
    (start : p.get c = .finite x) (applied : Parameters ℝ s) :
    ((Policy.Adam.fresh (.finite rate)).step p applied.embed).2.get c =
      .finite (x - rate * applied.get c / (|applied.get c| + 1e-8)) := by
  have once : ((Policy.Adam.fresh (s := s) (Extended.finite rate)).count + 1).toInt = 1 := rfl
  have room : |applied.get c| + 1e-8 ≠ 0 := by positivity
  have squared (y : ℝ) : (1 - .finite 0.999) * .finite y * .finite y =
      (1 - .finite 0.999) * Extended.finite (y ^ 2) := by
    rw [Extended.one_eq, Extended.sub_finite, Extended.mul_finite, Extended.mul_finite,
      Extended.mul_finite, mul_assoc, pow_two]
  obtain ⟨counted, mean, square, moved⟩ :=
    (Policy.Adam.fresh (.finite rate)).stepped_step p applied.embed
  rw [moved, mean, square, counted, once, start]
  simp only [Policy.Adam.fresh, get_zero_parameters, Parameters.get_embed,
    Extended.ofScientific_eq, squared]
  rw [estimate_of_one (by norm_num), estimate_of_one (by norm_num),
    Extended.sqrt_finite (sq_nonneg _), Real.sqrt_sq_eq_abs, Extended.add_finite,
    Extended.mul_finite, Extended.div_finite _ room, Extended.sub_finite]

/-- The gradient of a large reward is cut to the length allowed, and a missing reward leaves the
learner as it is. -/
theorem long_gradient_shortened :
    let settings : TrainingSettings Extended :=
      { (.defaults : TrainingSettings Extended) with
        entropyCoefficient := .finite 0, maxGradientNorm := .finite 1 }
    let learner : Learner Extended evenShape := .fresh (.finite 1) .zero
    let after (reward : Extended) := (learner.update settings (.finite 0) [evenEpisode reward]).2
    Scalar.lt 0 settings.maxGradientNorm = true ∧
      (∃ applied, Shortened (.finite 1) evenGradient applied ∧ applied ≠ evenGradient ∧
        Policy.Adam.Stepped applied.embed learner.parameters (after (.finite 8)).parameters
          learner.optimizer (after (.finite 8)).optimizer) ∧
      (after (.finite 8)).parameters.get (.outputBias 0) = .finite (4 / (4 + 1e-8 * √32)) ∧
      after .missing = learner := by
  intro settings learner after
  have positive : Scalar.lt 0 settings.maxGradientNorm = true := by
    rw [Extended.zero_eq, Extended.lt_finite, decide_eq_true one_pos]
  have long : ¬ evenGradient.length ≤ 1 := by
    rw [length_even, not_le, Real.lt_sqrt zero_le_one]
    norm_num
  have gradients : gradient settings.entropyCoefficient (.finite 0) learner.parameters
      [evenEpisode (.finite 8)] = evenGradient.embed := gradient_even
  obtain ⟨-, ⟨broken | broken, -⟩ | ⟨-, total, applied, real, -, shortened, stepped, entries⟩⟩ :=
    learner.update_all_or_nothing settings positive (.finite 0) [evenEpisode (.finite 8)]
  · exact absurd (loss_even_finite.symm.trans broken) nofun
  · rw [gradients, Parameters.norm_embed] at broken
    cases broken
  obtain ⟨-, ⟨-, kept⟩ | ⟨known, -⟩⟩ :=
    learner.update_all_or_nothing settings positive (.finite 0) [evenEpisode .missing]
  · obtain rfl : evenGradient = total := Parameters.embed_injective (gradients.symm.trans real)
    obtain ⟨factor, some, -, multiple⟩ := shortened.share
    have unit : √32 * factor = 1 := by
      have cut := shortened.cut (by rw [Extended.le_finite, decide_eq_false long])
      rw [Parameters.length_scale some.le multiple, length_even] at cut
      exact Extended.finite.inj cut
    have here : applied.get (.outputBias 0) = -(4 * factor) := by
      have bias : evenGradient.get (.outputBias 0) = -4 :=
        (Parameters.get_ofFn ..).trans (if_pos rfl)
      rw [multiple, bias, neg_mul]
    refine ⟨positive, ⟨applied, shortened, ?_, entries⟩, ?_, kept⟩
    · rintro rfl
      have short := shortened.bounded
      rw [Extended.le_finite, decide_eq_true_iff] at short
      exact long short
    · have share : 4 * factor / (4 * factor + 1e-8) = 4 / (4 + 1e-8 * √32) := by
        rw [div_eq_div_iff (by positivity) (by positivity)]
        linear_combination 4e-8 * unit
      have moved := get_first_step 1 (get_zero_parameters (.outputBias 0)) applied
      rw [here, abs_neg, abs_of_pos (by positivity), one_mul, neg_div, zero_sub, neg_neg,
        share] at moved
      exact (congrArg (fun next => next.2.get (.outputBias 0)) stepped).trans moved
  · exact absurd (known.symm.trans loss_even_missing) nofun

end Training

end FactorSearch
