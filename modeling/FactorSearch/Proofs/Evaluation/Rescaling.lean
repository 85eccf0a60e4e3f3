import FactorSearch.Proofs.Evaluation.Solvency
import FactorSearch.Proofs.Exact.Images
import FactorSearch.Proofs.Settings.Ranges
import FactorSearch.Proofs.Statistics.Comoments
import FactorSearch.Proofs.Statistics.Symmetry

/-!
# Backtests of a rescaled factor

In exact arithmetic a score does not see the scale and the origin of its period, and changes sign
with the factor.  So do the positions, as a threshold that is not negative keeps zero scores
flat.  A backtest of positions with the opposite sign trades as much, and before costs returns the
opposite.
-/

set_option autoImplicit false

namespace FactorSearch

open Extended

/-! ## Scores -/

namespace Statistics

/-- The distance of a value from the average, in deviations; zero where these are zero. -/
noncomputable def standing (values : List ℝ) (v : ℝ) : ℝ :=
  (v - average values id) / √(comoment values id id / values.length)

theorem standing_affine {a : ℝ} (b : ℝ) {values : List ℝ} (some : values ≠ []) (v : ℝ) :
    standing (values.map fun w => a * w + b) (a * v + b) = a / |a| * standing values v := by
  have center : average (values.map fun w => a * w + b) id = a * average values id + b := by
    rw [average_map]
    exact average_affine some a b id
  have spread : comoment (values.map fun w => a * w + b) id id =
      a ^ 2 * comoment values id id := by
    rw [comoment_map]
    exact comoment_self_affine values a b id
  have distance : a * v + b - (a * average values id + b) = a * (v - average values id) := by
    ring
  rw [standing, standing, center, spread, distance, List.length_map,
    mul_div_assoc (a ^ 2), Real.sqrt_mul (sq_nonneg a), Real.sqrt_sq_eq_abs, mul_div_mul_comm]

theorem zScoreCell_finite (values : List ℝ) (v : ℝ) :
    Kernel.zScoreCell (values.map finite) (finite v) = finite (standing values v) := by
  rw [Kernel.zScoreCell, if_pos (isFinite_finite v), mean_eq_average, deviation_eq_comoment,
    zero_eq, lt_finite, sub_finite, standing]
  by_cases spread : 0 < √(comoment values id id / values.length)
  · rw [if_pos (decide_eq_true spread), div_finite _ spread.ne']
  · have none : √(comoment values id id / values.length) = 0 :=
      le_antisymm (not_lt.mp spread) (Real.sqrt_nonneg _)
    rw [if_neg (by simpa using spread), none, div_zero]

end Statistics

variable {periods instruments : Nat} {x z : Panel Extended periods instruments}

namespace Panel

noncomputable def readings (x : Panel Extended periods instruments) (t : Fin periods) : List ℝ :=
  (Kernel.finiteCells (x.row t)).map toReal

theorem finiteCells_row (x : Panel Extended periods instruments) (t : Fin periods) :
    Kernel.finiteCells (x.row t) = (x.readings t).map finite := by
  rw [readings, List.map_map, List.map_congr_left (g := id), List.map_id]
  intro v member
  exact finite_toReal (List.mem_filter.mp member).2

theorem readings_ne_nil {t : Fin periods} {i : Fin instruments}
    (known : Scalar.isFinite (x.cell t i) = true) : x.readings t ≠ [] := by
  rw [readings, Ne, List.map_eq_nil_iff]
  exact List.ne_nil_of_mem (List.mem_filter.mpr ⟨cell_mem_row x t i, known⟩)

theorem readings_eq (x : Panel Extended periods instruments) (t : Fin periods) :
    x.readings t =
      ((List.finRange instruments).filter fun i => Scalar.isFinite (x.cell t i)).map
        (x.reading t) := by
  rw [readings, Kernel.finiteCells, row_eq, List.ofFn_eq_map, List.filter_map, List.map_map]
  rfl

theorem Images.readings_eq {g : Fin periods → ℝ → ℝ} (images : Images g x z) (t : Fin periods) :
    z.readings t = (x.readings t).map (g t) := by
  rw [Panel.readings_eq, Panel.readings_eq, List.map_map]
  simp only [images.isFinite]
  refine List.map_congr_left fun i member => ?_
  exact images.reading_eq (List.mem_filter.mp member).2

end Panel

open Panel Statistics

namespace Kernel

theorem cell_zScore (x : Panel Extended periods instruments) (t : Fin periods)
    (i : Fin instruments) :
    (zScore x).cell t i = if Scalar.isFinite (x.cell t i) then
      finite (standing (x.readings t) (x.reading t i)) else missing := by
  rw [zScore, cell_mapRows_cellwise _ zScoreRow_eq, finiteCells_row]
  split
  · rename_i known
    rw [← finite_reading known, zScoreCell_finite]
  · rename_i lacking
    rw [zScoreCell, if_neg lacking]
    rfl

/-- Scaling a period multiplies its scores by the sign of the scale; a shift does not show. -/
theorem cell_zScore_images {scale shift : Fin periods → ℝ}
    (images : Images (fun t v => scale t * v + shift t) x z) (t : Fin periods)
    (i : Fin instruments) :
    (zScore z).cell t i = finite (scale t / |scale t|) * (zScore x).cell t i := by
  rw [cell_zScore, cell_zScore, images.isFinite]
  split
  · rename_i known
    rw [images.readings_eq, images.reading_eq known, standing_affine _ (readings_ne_nil known),
      mul_finite]
  · rfl

theorem zScore_rescale {scale : Fin periods → ℝ} (positive : ∀ t, 0 < scale t)
    (shift : Fin periods → ℝ) (x : Panel Extended periods instruments) :
    zScore (x.rescale scale shift) = zScore x := by
  ext t i
  rw [cell_zScore_images (images_rescale scale shift x), abs_of_pos (positive t),
    div_self (positive t).ne', finite_one_mul]

theorem zScore_neg (x : Panel Extended periods instruments) :
    zScore (neg x) = neg (zScore x) := by
  have images : Images (fun _ v => -1 * v + 0) x (neg x) := by
    simpa using images_neg x
  ext t i
  rw [cell_zScore_images images, abs_neg, abs_one, div_one, finite_neg_one_mul, neg, map, cell_ofFn]

end Kernel

namespace Backtest

/-! ## Positions -/

/-- A score that clears a threshold of zero or more has a sign. -/
theorem positionOf_neg {threshold : Extended}
    (valid : Scalar.isNaN threshold = true ∨ Scalar.le 0 threshold = true) (z : Extended) :
    positionOf threshold (-z) = -positionOf threshold z := by
  have flat : -(0 : Extended) = 0 := by simp
  cases z with
  | infinite s => exact flat.symm
  | missing => exact flat.symm
  | finite r =>
    have size : Scalar.abs (finite (-r)) = Scalar.abs (finite r) := by simp
    rw [neg_finite, positionOf, positionOf, isFinite_finite, isFinite_finite, size]
    cases clears : Scalar.lt threshold (Scalar.abs (finite r)) with
    | true =>
      have signed : r ≠ 0 := by
        rintro rfl
        obtain ⟨present, -, below⟩ := (Scalar.Ordered.lt_iff _ _).mp clears
        have least := valid.resolve_left (by simp [present])
        have above := ((Scalar.Ordered.le_iff _ _).mp least).2.2
        rw [abs_finite, abs_zero, ← zero_eq] at below
        exact lt_irrefl _ (below.trans_le above)
      rw [Bool.and_self, if_pos rfl, if_pos rfl, isNegative_finite, isNegative_finite]
      rcases signed.lt_or_gt with negative | positive
      · simp [negative, negative.le]
      · simp [positive, positive.not_gt]
    | false => rw [Bool.and_false, if_neg Bool.false_ne_true, if_neg Bool.false_ne_true, flat]

theorem positions_rescale (settings : RewardSettings Extended) {scale : Fin periods → ℝ}
    (positive : ∀ t, 0 < scale t) (shift : Fin periods → ℝ)
    (factor : Panel Extended periods instruments) :
    positions settings (factor.rescale scale shift) = positions settings factor := by
  rw [positions, positions, Kernel.zScore_rescale positive]

theorem positions_neg {settings : RewardSettings Extended} (valid : settings.validate = .ok ())
    (factor : Panel Extended periods instruments) :
    positions settings (Kernel.neg factor) = Kernel.neg (positions settings factor) := by
  have threshold := ((Settings.reward_validate_iff settings).mp valid).2.1.2
  rw [positions, positions, Kernel.zScore_neg]
  ext t i
  simp only [Kernel.neg, map, cell_ofFn]
  exact positionOf_neg threshold _

/-! ## Opposite positions -/

theorem toReal_neg (x : Extended) : (-x).toReal = -x.toReal := by
  cases x with
  | finite r => rfl
  | infinite | missing => exact neg_zero.symm

theorem cell_neg (held : Panel Extended periods instruments) (t : Fin periods)
    (i : Fin instruments) : (Kernel.neg held).cell t i = -held.cell t i :=
  cell_ofFn ..

theorem holding_neg (held : Panel Extended periods instruments) (n : Nat) :
    holding (Kernel.neg held) n = fun i => -holding held n i := by
  funext i
  cases n with
  | zero => exact neg_zero.symm
  | succ n =>
    rw [holding, holding]
    split
    · rw [cell_neg, toReal_neg]
    · exact neg_zero.symm

theorem change_neg (before after : Fin instruments → ℝ) :
    change (fun i => -before i) (fun i => -after i) = change before after := by
  have size (i : Fin instruments) : |-after i - -before i| = |after i - before i| := by
    rw [neg_sub_neg, abs_sub_comm]
  simp only [change, size]

theorem gross_neg (held forward : Panel Extended periods instruments) (t : Fin periods) :
    gross (Kernel.neg held) forward t = -gross held forward t := by
  simp only [gross, cell_neg, toReal_neg, neg_mul]
  exact average_neg ..

theorem evaluatedPeriods_turnover (settings : RewardSettings Extended)
    (factor forward : Panel Extended periods instruments) :
    (evaluatedPeriods settings factor forward).map Period.turnover =
      ((List.finRange periods).filter fun t => traded forward t ≠ []).map
        fun t : Fin periods => finite (change (holding (positions settings factor) t)
          (holding (positions settings factor) (t + 1))) := by
  rw [evaluatedPeriods_eq, List.map_filterMap, ← List.filterMap_eq_map, List.filterMap_filter]
  congr 1
  funext t
  have trades := tradable_eq forward t ((positions settings factor).cell t)
  rw [← Panel.row_eq] at trades
  rw [period?, trades, turnover_eq (cell_positions settings factor)]
  by_cases none : traded forward t = [] <;> simp [none]

theorem turnover_neg {settings : RewardSettings Extended} (valid : settings.validate = .ok ())
    (factor : Panel Extended periods instruments) (t : Fin periods) :
    turnover (heldBefore (positions settings (Kernel.neg factor)) t)
        ((positions settings (Kernel.neg factor)).row t) =
      turnover (heldBefore (positions settings factor) t) ((positions settings factor).row t) := by
  rw [turnover_eq (cell_positions settings _), turnover_eq (cell_positions settings _),
    positions_neg valid, holding_neg, holding_neg, change_neg]

theorem evaluatedPeriods_turnover_neg {settings : RewardSettings Extended}
    (valid : settings.validate = .ok ()) (factor forward : Panel Extended periods instruments) :
    (evaluatedPeriods settings (Kernel.neg factor) forward).map Period.turnover =
      (evaluatedPeriods settings factor forward).map Period.turnover := by
  simp only [evaluatedPeriods_turnover, positions_neg valid, holding_neg, change_neg]

theorem returns_neg {settings : RewardSettings Extended} (valid : settings.validate = .ok ())
    (free : settings.costRate = 0) (factor forward : Panel Extended periods instruments) :
    (run settings (Kernel.neg factor) forward).returns =
      (run settings factor forward).returns.map fun r => -r := by
  have charged : settings.costRate = finite 0 := free.trans zero_eq
  rw [run_returns settings 0 charged, run_returns settings 0 charged, List.map_map]
  refine List.map_congr_left fun t _ => ?_
  simp [positions_neg valid, gross_neg, cost]

/-- A backtest by validated settings does not depend on the scale and the origin of the factor in
each period.  The factor with the opposite sign takes the opposite positions, turns over the same in
every period, skipped or not, and returns the opposite where trading is free. -/
theorem run_scale_sign {settings : RewardSettings Extended} (valid : settings.validate = .ok ())
    (factor forward : Panel Extended periods instruments) :
    (∀ scale shift : Fin periods → ℝ, (∀ t, 0 < scale t) →
      positions settings (factor.rescale scale shift) = positions settings factor ∧
      (run settings (factor.rescale scale shift) forward).returns =
        (run settings factor forward).returns ∧
      (run settings (factor.rescale scale shift) forward).equity =
        (run settings factor forward).equity) ∧
    positions settings (Kernel.neg factor) = Kernel.neg (positions settings factor) ∧
    (∀ t, turnover (heldBefore (positions settings (Kernel.neg factor)) t)
        ((positions settings (Kernel.neg factor)).row t) =
      turnover (heldBefore (positions settings factor) t) ((positions settings factor).row t)) ∧
    (evaluatedPeriods settings (Kernel.neg factor) forward).map Period.turnover =
      (evaluatedPeriods settings factor forward).map Period.turnover ∧
    (settings.costRate = 0 → (run settings (Kernel.neg factor) forward).returns =
      (run settings factor forward).returns.map fun r => -r) := by
  refine ⟨fun scale shift positive => ?_, positions_neg valid factor, turnover_neg valid factor,
    evaluatedPeriods_turnover_neg valid factor forward,
    fun free => returns_neg valid free factor forward⟩
  have same := positions_rescale settings positive shift factor
  have evaluated : evaluatedPeriods settings (factor.rescale scale shift) forward =
      evaluatedPeriods settings factor forward := by
    rw [evaluatedPeriods, evaluatedPeriods, same]
  refine ⟨same, ?_, ?_⟩
  · exact congrArg (List.map Period.net) evaluated
  · exact congrArg (fun evaluated => Statistics.equityCurve (evaluated.map Period.net)) evaluated

noncomputable def costless : RewardSettings Extended :=
  { RewardSettings.defaults with costRate := 0 }

/-- Without costs the opposite of a factor gains what the factor loses. -/
theorem squeeze_gains :
    costless.validate = .ok () ∧ costless.costRate = 0 ∧
    (run costless (opposed.rescale (fun _ => 0.5) fun _ => 1) squeeze).returns = [finite (-3.0)] ∧
    (run costless (Kernel.neg opposed) squeeze).returns = [finite 3.0] := by
  have valid : costless.validate = .ok () := by
    simp only [costless, RewardSettings.validate, RewardSettings.defaults, RewardSettings.isRatio,
      numeral_eq, neg_finite, ofScientific_eq, le_finite, lt_finite]
    norm_num
  have charged : costless.costRate = finite 0 := zero_eq
  have evaluated : (List.finRange 1).filter (fun t => traded squeeze t ≠ []) = [0] := rfl
  have lost : gross (positions costless opposed) squeeze 0 = -3.0 := by
    have trades : traded squeeze 0 = [0, 1] := rfl
    have sold : squeeze.cell 0 0 = finite 3.0 := rfl
    have bought : squeeze.cell 0 1 = finite (-3.0) := rfl
    have taken : positions costless opposed = positions .defaults opposed := rfl
    rw [gross, trades, taken]
    norm_num [positions_opposed, sold, bought]
  have returned : (run costless opposed squeeze).returns = [finite (-3.0)] := by
    rw [run_returns costless 0 charged, evaluated, List.map_singleton, lost]
    simp [cost]
  obtain ⟨scaled, -, -, -, opposite⟩ := run_scale_sign valid opposed squeeze
  refine ⟨valid, rfl, ?_, ?_⟩
  · rw [(scaled _ _ fun _ => by norm_num).2.1, returned]
  · rw [opposite rfl, returned]
    simp

end Backtest

end FactorSearch
