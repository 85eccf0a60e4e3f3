import FactorSearch.Proofs.Evaluation.PaidTurnover
import FactorSearch.Proofs.Statistics.Correlations

/-!
# Information coefficients

In exact arithmetic a period is correlated over the instruments for which both panels have a finite
cell.  Which instruments these are, and whether the cells vary over them, does not change with the
scale, the sign or an order-preserving change of the factor, so that the same periods are averaged.
-/

set_option autoImplicit false

namespace FactorSearch

open Extended

variable {periods instruments : Nat} {x y z : Panel Extended periods instruments}

namespace Panel

noncomputable def usable (x y : Panel Extended periods instruments) (t : Fin periods) :
    List (Fin instruments) :=
  (List.finRange instruments).filter fun i =>
    Scalar.isFinite (x.cell t i) && Scalar.isFinite (y.cell t i)

theorem usable_comm (x y : Panel Extended periods instruments) (t : Fin periods) :
    usable x y t = usable y x t := by
  simp only [usable, Bool.and_comm]

theorem isFinite_of_mem_usable {t : Fin periods} {i : Fin instruments} (member : i ∈ usable x y t) :
    Scalar.isFinite (x.cell t i) = true ∧ Scalar.isFinite (y.cell t i) = true :=
  Bool.and_eq_true_iff.mp (List.mem_filter.mp member).2

theorem Images.usable_eq {g : Fin periods → ℝ → ℝ} (images : Images g x z)
    (y : Panel Extended periods instruments) (t : Fin periods) : usable z y t = usable x y t := by
  simp only [usable, images.isFinite]

end Panel

open Panel

namespace Statistics

/-! ## One period -/

/-- The correlation, plain or of places, of two panels in a period. -/
noncomputable def periodCorrelation (ranked : Bool) (x y : Panel Extended periods instruments)
    (t : Fin periods) : Option ℝ :=
  correlation (usable x y t) (scores ranked (usable x y t) (x.reading t))
    (scores ranked (usable x y t) (y.reading t))

theorem usablePairs_row (x y : Panel Extended periods instruments) (t : Fin periods) :
    usablePairs (x.row t) (y.row t) =
      (usable x y t).map fun i => (finite (x.reading t i), finite (y.reading t i)) := by
  have cells : usablePairs (x.row t) (y.row t) =
      (usable x y t).map fun i => (x.cell t i, y.cell t i) := by
    rw [usablePairs, row_eq, row_eq, List.ofFn_eq_map, List.ofFn_eq_map, List.zip_map',
      List.filter_map]
    rfl
  rw [cells]
  refine List.map_congr_left fun i member => ?_
  obtain ⟨first, second⟩ := isFinite_of_mem_usable member
  rw [finite_reading first, finite_reading second]

theorem rowCorrelation_eq (ranked : Bool) (x y : Panel Extended periods instruments)
    (t : Fin periods) :
    rowCorrelation ranked (x.row t) (y.row t) = (periodCorrelation ranked x y t).map finite := by
  rw [periodCorrelation, ← correlate_finite, rowCorrelation, usablePairs_row, List.map_map,
    List.map_map]
  rfl

theorem periodCorrelation_comm (ranked : Bool) (x y : Panel Extended periods instruments)
    (t : Fin periods) : periodCorrelation ranked x y t = periodCorrelation ranked y x t := by
  rw [periodCorrelation, periodCorrelation, usable_comm y x, correlation_comm]

theorem periodCorrelation_images {g : Fin periods → ℝ → ℝ} (images : Images g x z) (ranked : Bool)
    (y : Panel Extended periods instruments) (t : Fin periods) :
    periodCorrelation ranked z y t =
      correlation (usable x y t) (scores ranked (usable x y t) fun i => g t (x.reading t i))
        (scores ranked (usable x y t) (y.reading t)) := by
  rw [periodCorrelation, images.usable_eq]
  exact correlation_congr (scores_congr ranked fun i member =>
    images.reading_eq (isFinite_of_mem_usable member).1)

theorem periodCorrelation_neg (ranked : Bool) (x y : Panel Extended periods instruments)
    (t : Fin periods) :
    periodCorrelation ranked (Kernel.neg x) y t =
      (periodCorrelation ranked x y t).map fun r => -r := by
  obtain ⟨c, mirrored⟩ := exists_scores_neg ranked (usable x y t) (x.reading t)
  rw [periodCorrelation_images (images_neg x), mirrored, correlation_mirror]
  rfl

theorem periodCorrelation_rescale {scale : Fin periods → ℝ} (positive : ∀ t, 0 < scale t)
    (shift : Fin periods → ℝ) (x y : Panel Extended periods instruments) (t : Fin periods) :
    periodCorrelation false (x.rescale scale shift) y t = periodCorrelation false x y t := by
  rw [periodCorrelation_images (images_rescale scale shift x)]
  exact correlation_rescale (positive t) (shift t) (x.reading t) _

theorem periodCorrelation_transform {g : Fin periods → ℝ → ℝ} {t : Fin periods}
    (rises : StrictMonoOn (g t) {v | ∃ i, x.cell t i = finite v})
    (y : Panel Extended periods instruments) :
    periodCorrelation true (x.transform g) y t = periodCorrelation true x y t := by
  have among : {v | ∃ i ∈ usable x y t, x.reading t i = v} ⊆ {v | ∃ i, x.cell t i = finite v} := by
    rintro v ⟨i, member, rfl⟩
    exact ⟨i, (finite_reading (isFinite_of_mem_usable member).1).symm⟩
  rw [periodCorrelation_images (images_transform g x)]
  exact correlation_congr fun i member => placeAmong_increasing (rises.mono among) member

theorem rowCorrelation_eq_none_iff (ranked : Bool) (x y : Panel Extended periods instruments)
    (t : Fin periods) :
    rowCorrelation ranked (x.row t) (y.row t) = none ↔
      (usable x y t).length < 2 ∨ Constant (usable x y t) (x.reading t) ∨
        Constant (usable x y t) (y.reading t) := by
  rw [rowCorrelation_eq, Option.map_eq_none_iff, periodCorrelation, correlation_eq_none_iff,
    constant_scores_iff, constant_scores_iff]
  constructor
  · exact .inr
  · rintro (short | level)
    · exact .inl (constant_of_length_lt_two short _)
    · exact level

/-! ## The average over periods -/

noncomputable def coefficient (ranked : Bool) (x y : Panel Extended periods instruments) : ℝ :=
  average ((List.finRange periods).filterMap (periodCorrelation ranked x y)) id

theorem informationCoefficient_finite (ranked : Bool) (x y : Panel Extended periods instruments) :
    informationCoefficient ranked x.toRows y.toRows = finite (coefficient ranked x y) := by
  rw [informationCoefficient_eq]
  simp only [rowCorrelation_eq]
  rw [← List.map_filterMap, mean_eq_average, coefficient]

theorem coefficient_congr {ranked : Bool}
    (same : ∀ t, periodCorrelation ranked z y t = periodCorrelation ranked x y t) :
    coefficient ranked z y = coefficient ranked x y := by
  rw [coefficient, coefficient, funext same]

theorem coefficient_comm (ranked : Bool) (x y : Panel Extended periods instruments) :
    coefficient ranked x y = coefficient ranked y x := by
  rw [coefficient, coefficient, funext (periodCorrelation_comm ranked x y)]

theorem coefficient_neg (ranked : Bool) (x y : Panel Extended periods instruments) :
    coefficient ranked (Kernel.neg x) y = -coefficient ranked x y := by
  have turned : (List.finRange periods).filterMap (periodCorrelation ranked (Kernel.neg x) y) =
      ((List.finRange periods).filterMap (periodCorrelation ranked x y)).map fun r => -r := by
    rw [List.map_filterMap, funext (periodCorrelation_neg ranked x y)]
  rw [coefficient, coefficient, turned, average_map]
  exact average_neg ..

theorem coefficient_bounds (ranked : Bool) (x y : Panel Extended periods instruments) :
    -1 ≤ coefficient ranked x y ∧ coefficient ranked x y ≤ 1 := by
  refine average_bounds (by norm_num) zero_le_one fun r member => ?_
  obtain ⟨t, -, correlated⟩ := List.mem_filterMap.mp member
  exact correlation_bounds correlated

/-- Information coefficients, plain and of ranks, are means of the correlations of periods.  They
lie between minus one and one, do not distinguish their arguments and change sign with the
factor.  Positive scales and shifts leave the plain one alone, and increasing functions of the
finite cells that of ranks.  A period has a correlation unless it has fewer than two usable cells or
one side is constant on them. -/
theorem informationCoefficient_correlates (factor forward : Panel Extended periods instruments) :
    (∀ ranked, informationCoefficient ranked factor.toRows forward.toRows =
        mean ((List.finRange periods).filterMap fun t =>
          rowCorrelation ranked (factor.row t) (forward.row t)) ∧
      ∀ t, rowCorrelation ranked (factor.row t) (forward.row t) =
        (periodCorrelation ranked factor forward t).map finite) ∧
    (∀ ranked, ∃ r : ℝ, informationCoefficient ranked factor.toRows forward.toRows = finite r ∧
      -1 ≤ r ∧ r ≤ 1 ∧
      informationCoefficient ranked forward.toRows factor.toRows = finite r ∧
      informationCoefficient ranked (Kernel.neg factor).toRows forward.toRows = finite (-r)) ∧
    (∀ scale shift : Fin periods → ℝ, (∀ t, 0 < scale t) →
      informationCoefficient false (factor.rescale scale shift).toRows forward.toRows =
        informationCoefficient false factor.toRows forward.toRows) ∧
    (∀ g : Fin periods → ℝ → ℝ,
      (∀ t, StrictMonoOn (g t) {v | ∃ i, factor.cell t i = finite v}) →
      informationCoefficient true (factor.transform g).toRows forward.toRows =
        informationCoefficient true factor.toRows forward.toRows) ∧
    ∀ ranked t, rowCorrelation ranked (factor.row t) (forward.row t) = none ↔
      (usable factor forward t).length < 2 ∨
        Constant (usable factor forward t) (factor.reading t) ∨
        Constant (usable factor forward t) (forward.reading t) := by
  refine ⟨fun ranked => ⟨informationCoefficient_eq ranked factor forward,
    rowCorrelation_eq ranked factor forward⟩, ?_⟩
  simp only [informationCoefficient_finite]
  refine ⟨fun ranked => ?_, fun scale shift positive => ?_, fun g rises => ?_, fun ranked t =>
    rowCorrelation_eq_none_iff ranked factor forward t⟩
  · obtain ⟨above, below⟩ := coefficient_bounds ranked factor forward
    refine ⟨coefficient ranked factor forward, rfl, above, below, ?_, ?_⟩
    · rw [coefficient_comm]
    · rw [coefficient_neg]
  · rw [coefficient_congr (periodCorrelation_rescale positive shift factor forward)]
  · rw [coefficient_congr fun t => periodCorrelation_transform (rises t) forward]

/-- The first period is level, the second one has no usable cell, and the third one is correlated
fully, as a rise is with a rise. -/
theorem parting_correlated :
    informationCoefficient false Backtest.parting.toRows Backtest.gap.toRows = finite 1 ∧
    rowCorrelation false (Backtest.parting.row 0) (Backtest.gap.row 0) = none ∧
    rowCorrelation true (Backtest.parting.row 1) (Backtest.gap.row 1) = none ∧
    rowCorrelation true (Backtest.parting.row 2) (Backtest.gap.row 2) ≠ none ∧
    informationCoefficient false (Backtest.parting.rescale (fun _ => 0.5) fun _ => 1).toRows
        Backtest.gap.toRows =
      informationCoefficient false Backtest.parting.toRows Backtest.gap.toRows ∧
    informationCoefficient true (Backtest.parting.transform fun _ v => v ^ 3).toRows
        Backtest.gap.toRows =
      informationCoefficient true Backtest.parting.toRows Backtest.gap.toRows := by
  obtain ⟨averaged, -, scaled, mapped, skipped⟩ :=
    informationCoefficient_correlates Backtest.parting Backtest.gap
  have cubes : StrictMono fun v : ℝ => v ^ 3 := Odd.strictMono_pow (by decide)
  have both : usable Backtest.parting Backtest.gap 2 = [0, 1] := rfl
  have level (ranked : Bool) :
      rowCorrelation ranked (Backtest.parting.row 0) (Backtest.gap.row 0) = none := by
    refine (skipped ranked 0).mpr (.inr (.inl ⟨0, fun i _ => ?_⟩))
    fin_cases i <;> rfl
  have unknown (ranked : Bool) :
      rowCorrelation ranked (Backtest.parting.row 1) (Backtest.gap.row 1) = none := by
    have none : usable Backtest.parting Backtest.gap 1 = [] := rfl
    refine (skipped ranked 1).mpr (.inl ?_)
    rw [none]
    decide
  have rises : rowCorrelation false (Backtest.parting.row 2) (Backtest.gap.row 2) =
      some (finite 1) := by
    have first : (-1 : ℝ) < 1 := by norm_num
    have second : (0.01 : ℝ) < 0.02 := by norm_num
    rw [(averaged false).2, periodCorrelation, both]
    exact congrArg (Option.map finite) (correlation_pair first second)
  have periods : List.finRange 3 = [0, 1, 2] := rfl
  refine ⟨?_, level false, unknown true, ?_, scaled _ _ fun _ => by norm_num,
    mapped _ fun _ => cubes.strictMonoOn _⟩
  · simp only [(averaged false).1, periods, List.filterMap_cons, level, unknown, rises,
      List.filterMap_nil]
    exact (mean_eq_average [1]).trans (by norm_num [average])
  · rw [Ne, skipped, both]
    rintro (short | ⟨c, level⟩ | ⟨c, level⟩)
    · exact absurd short (by decide)
    · have first : (-1 : ℝ) = c := level 0 (by decide)
      have second : (1 : ℝ) = c := level 1 (by decide)
      norm_num [← second] at first
    · have first : (0.01 : ℝ) = c := level 0 (by decide)
      have second : (0.02 : ℝ) = c := level 1 (by decide)
      norm_num [← second] at first

end Statistics

end FactorSearch
