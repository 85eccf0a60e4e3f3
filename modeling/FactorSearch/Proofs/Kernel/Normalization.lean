import FactorSearch.Proofs.Evaluation.Rescaling

/-!
# Normalized scores

The score of a cell is an affine function of it, with the inverse of the period's deviation as the
slope.  In exact arithmetic the scores of a period therefore average zero, and their squares average
one unless the finite cells are all equal; then the slope and all scores are zero.  A positive slope
and a shift do not change scores, so that scoring twice is scoring once.
-/

set_option autoImplicit false

namespace FactorSearch

open Extended

namespace Statistics

/-! ## Standings of a list -/

/-- The inverse of the deviation; zero where the values do not differ. -/
noncomputable def slope (values : List ℝ) : ℝ := (√(comoment values id id / values.length))⁻¹

theorem slope_nonneg (values : List ℝ) : 0 ≤ slope values := inv_nonneg.mpr (Real.sqrt_nonneg _)

theorem standing_eq (values : List ℝ) (v : ℝ) :
    standing values v = slope values * v + -(slope values * average values id) := by
  rw [standing, slope]
  ring

theorem sum_standing (values : List ℝ) : (values.map (standing values)).sum = 0 := by
  rcases eq_or_ne values [] with rfl | some
  · rfl
  have count : (values.length : ℝ) ≠ 0 := by simpa using some
  have center : average values (standing values) = 0 := by
    rw [funext (standing_eq values), average_affine some]
    exact add_neg_cancel _
  rw [average, div_eq_zero_iff] at center
  exact center.resolve_right count

theorem slope_of_constant {values : List ℝ} (level : Constant values id) : slope values = 0 := by
  rw [slope, (comoment_self_eq_zero_iff values id).mpr level, zero_div, Real.sqrt_zero, inv_zero]

theorem standing_of_slope_eq_zero {values : List ℝ} (flat : slope values = 0) (v : ℝ) :
    standing values v = 0 := by
  rw [standing_eq, flat]
  ring

theorem sum_sq_standing {values : List ℝ} (varied : ¬ Constant values id) :
    (values.map fun v => standing values v ^ 2).sum = values.length := by
  have spread : comoment values id id ≠ 0 := mt (comoment_self_eq_zero_iff values id).mp varied
  have variance : 0 ≤ comoment values id id / values.length :=
    div_nonneg (comoment_self_nonneg values id) (Nat.cast_nonneg _)
  have square (v : ℝ) : standing values v ^ 2 =
      (v - average values id) * (v - average values id) *
        (comoment values id id / values.length)⁻¹ := by
    rw [standing, div_pow, Real.sq_sqrt variance, div_eq_mul_inv, pow_two]
  calc (values.map fun v => standing values v ^ 2).sum
      = comoment values id id * (comoment values id id / values.length)⁻¹ := by
        simp only [square]
        exact List.sum_map_mul_right ..
    _ = values.length := by
        rw [inv_div, mul_div_cancel₀ _ spread]

end Statistics

open Statistics

variable {periods instruments : Nat}

namespace Panel

noncomputable def occupied (x : Panel Extended periods instruments) (t : Fin periods) :
    Finset (Fin instruments) :=
  {i | Scalar.isFinite (x.cell t i) = true}

def Flat (x : Panel Extended periods instruments) (t : Fin periods) : Prop :=
  ∃ v, ∀ i ∈ x.occupied t, x.cell t i = v

variable (x : Panel Extended periods instruments) (t : Fin periods)

theorem mem_occupied {i : Fin instruments} :
    i ∈ x.occupied t ↔ Scalar.isFinite (x.cell t i) = true := by
  simp [occupied]

theorem occupied_eq :
    x.occupied t =
      ((List.finRange instruments).filter fun i => Scalar.isFinite (x.cell t i)).toFinset := by
  ext i
  simp [occupied]

theorem sum_occupied (f : ℝ → ℝ) :
    ∑ i ∈ x.occupied t, f (x.reading t i) = ((x.readings t).map f).sum := by
  rw [occupied_eq, List.sum_toFinset _ ((List.nodup_finRange _).filter _), readings_eq,
    List.map_map]
  rfl

theorem card_occupied : (x.occupied t).card = (x.readings t).length := by
  rw [occupied_eq, List.toFinset_card_of_nodup ((List.nodup_finRange _).filter _), readings_eq,
    List.length_map]

theorem mem_readings {v : ℝ} : v ∈ x.readings t ↔ ∃ i ∈ x.occupied t, x.reading t i = v := by
  simp [readings_eq, mem_occupied]

theorem flat_iff : x.Flat t ↔ Constant (x.readings t) id := by
  constructor
  · rintro ⟨v, level⟩
    refine ⟨v.toReal, fun r member => ?_⟩
    obtain ⟨i, inside, rfl⟩ := (mem_readings x t).mp member
    rw [id, reading, level i inside]
  · rintro ⟨c, level⟩
    refine ⟨finite c, fun i inside => ?_⟩
    rw [← finite_reading ((mem_occupied x t).mp inside)]
    exact congrArg finite (level _ ((mem_readings x t).mpr ⟨i, inside, rfl⟩))

end Panel

namespace Kernel

open Panel

/-- The scores of a panel are its finite cells, scaled and shifted in every period. -/
theorem images_zScore (x : Panel Extended periods instruments) :
    Images (fun t v => slope (x.readings t) * v +
      -(slope (x.readings t) * average (x.readings t) id)) x (zScore x) where
  isFinite t i := by
    rw [cell_zScore]
    cases known : Scalar.isFinite (x.cell t i) with
    | true => rfl
    | false => rfl
  value t i v known := by
    rw [cell_zScore, known, if_pos (isFinite_finite v), reading, known, standing_eq, toReal_finite]

theorem zScore_zScore (x : Panel Extended periods instruments) : zScore (zScore x) = zScore x := by
  ext t i
  rw [cell_zScore_images (images_zScore x), cell_zScore]
  split
  · rw [mul_finite]
    congr 1
    rcases (slope_nonneg (x.readings t)).eq_or_lt with flat | steep
    · rw [standing_of_slope_eq_zero flat.symm, mul_zero]
    · rw [abs_of_pos steep, div_self steep.ne', one_mul]
  · rfl

/-- A score is missing just where the cell is not finite.  The scores of a period add up to zero,
and their squares to their number unless the finite cells are all equal, when the scores are all
zero.  Scores are their own scores. -/
theorem zScore_normalizes (x : Panel Extended periods instruments) :
    (∀ t, ∃ z : Fin instruments → ℝ,
      (∀ i, (zScore x).cell t i =
        if Scalar.isFinite (x.cell t i) then finite (z i) else missing) ∧
      ∑ i ∈ x.occupied t, z i = 0 ∧
      (x.Flat t ∧ (∀ i ∈ x.occupied t, z i = 0) ∨
        ¬ x.Flat t ∧ ∑ i ∈ x.occupied t, z i ^ 2 = (x.occupied t).card)) ∧
      zScore (zScore x) = zScore x := by
  refine ⟨fun t => ?_, zScore_zScore x⟩
  refine ⟨fun i => standing (x.readings t) (x.reading t i), cell_zScore x t, ?_, ?_⟩
  · rw [sum_occupied, sum_standing]
  · by_cases flat : x.Flat t
    · have still := slope_of_constant ((flat_iff x t).mp flat)
      exact .inl ⟨flat, fun i _ => standing_of_slope_eq_zero still _⟩
    · refine .inr ⟨flat, ?_⟩
      rw [sum_occupied x t fun v => standing (x.readings t) v ^ 2, card_occupied]
      exact sum_sq_standing (mt (flat_iff x t).mpr flat)

end Kernel

end FactorSearch
