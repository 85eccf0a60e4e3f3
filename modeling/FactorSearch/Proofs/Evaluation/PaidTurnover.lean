import FactorSearch.Proofs.Evaluation.Periods
import FactorSearch.Proofs.Exact.Extended

/-!
# What is paid for trading

In exact arithmetic every evaluated period pays for the change from the positions of the period
before it, at the rate that is set.  A skipped period takes its positions without paying, so that
the change since the last evaluated period is paid for only up to the changes in the skipped periods
between.
-/

set_option autoImplicit false

namespace FactorSearch

namespace Backtest

open Extended

variable {periods instruments : Nat}

noncomputable def change (before after : Fin instruments → ℝ) : ℝ :=
  (∑ i, |after i - before i|) / (Nat.max instruments 1 : ℕ)

/-- The positions after the first `n` periods: flat at first. -/
def holding (held : Panel Extended periods instruments) : Nat → Fin instruments → ℝ
  | 0, _ => 0
  | n + 1, i => if inside : n < periods then (held.cell ⟨n, inside⟩ i).toReal else 0

noncomputable def traded (forward : Panel Extended periods instruments) (t : Fin periods) :
    List (Fin instruments) :=
  (List.finRange instruments).filter fun i => Scalar.isFinite (forward.cell t i)

noncomputable def gross (held forward : Panel Extended periods instruments) (t : Fin periods) : ℝ :=
  ((traded forward t).map fun i => (held.cell t i).toReal * (forward.cell t i).toReal).sum /
    (traded forward t).length

/-- What the change of positions in a period costs. -/
noncomputable def cost (rate : ℝ) (held : Panel Extended periods instruments) (n : Nat) : ℝ :=
  rate * change (holding held n) (holding held (n + 1))

theorem holding_succ (held : Panel Extended periods instruments) (t : Fin periods) :
    holding held (t + 1) = fun i => (held.cell t i).toReal :=
  funext fun _ => dif_pos t.isLt

/-! ## Positions are real numbers -/

theorem exists_positionOf (threshold z : Extended) : ∃ p, positionOf threshold z = finite p := by
  rw [positionOf]
  split
  · split
    · exact ⟨-1, by simp⟩
    · exact ⟨1, by simp⟩
  · exact ⟨0, by simp⟩

theorem positionOf_finite (threshold z : ℝ) : positionOf (finite threshold) (finite z) =
    finite (if threshold < |z| then if z < 0 then -1 else 1 else 0) := by
  rw [positionOf]
  by_cases clears : threshold < |z|
  · by_cases negative : z < 0 <;> simp [clears, negative]
  · simp [clears]

theorem cell_positions (settings : RewardSettings Extended)
    (factor : Panel Extended periods instruments) (t : Fin periods) (i : Fin instruments) :
    (positions settings factor).cell t i =
      finite ((positions settings factor).cell t i).toReal := by
  obtain ⟨p, position⟩ := exists_positionOf settings.signalThreshold
    ((Kernel.zScore factor).cell t i)
  rw [positions, Panel.map, Panel.cell_ofFn, position, toReal_finite]

variable {held : Panel Extended periods instruments}

theorem row_eq_holding (real : ∀ t i, held.cell t i = finite (held.cell t i).toReal)
    (t : Fin periods) : held.row t = List.ofFn fun i => finite (holding held (t + 1) i) := by
  rw [Panel.row_eq]
  rw [holding_succ]
  exact congrArg List.ofFn (funext (real t))

theorem heldBefore_eq_holding (real : ∀ t i, held.cell t i = finite (held.cell t i).toReal)
    (t : Fin periods) : heldBefore held t = List.ofFn fun i => finite (holding held t i) := by
  match t with
  | ⟨0, _⟩ =>
    simp [heldBefore, holding, List.ofFn_const]
  | ⟨s + 1, inside⟩ => exact row_eq_holding real ⟨s, _⟩

theorem turnover_eq_change (before after : Fin instruments → ℝ) :
    turnover (List.ofFn fun i => finite (before i)) (List.ofFn fun i => finite (after i)) =
      finite (change before after) := by
  have differences : (List.ofFn fun i => finite (after i)).zipWith
        (fun p q => Scalar.abs (p - q)) (List.ofFn fun i => finite (before i)) =
      (List.ofFn fun i => |after i - before i|).map finite := by
    apply List.ext_getElem <;> simp
  have positive : ((Nat.max instruments 1 : ℕ) : ℝ) ≠ 0 := by
    have : 1 ≤ Nat.max instruments 1 := Nat.le_max_right _ _
    positivity
  rw [turnover, differences, total_finite, List.length_ofFn, ofNat_eq, div_finite _ positive,
    List.sum_ofFn, change]

theorem turnover_eq (real : ∀ t i, held.cell t i = finite (held.cell t i).toReal)
    (t : Fin periods) :
    turnover (heldBefore held t) (held.row t) =
      finite (change (holding held t) (holding held (t + 1))) := by
  rw [heldBefore_eq_holding real, row_eq_holding real, turnover_eq_change]

theorem tradable_eq (forward : Panel Extended periods instruments) (t : Fin periods)
    (positions : Fin instruments → Extended) :
    tradable (List.ofFn positions) (forward.row t) =
      (traded forward t).map fun i => (positions i, forward.cell t i) := by
  rw [tradable, Panel.row_eq, List.ofFn_eq_map, List.ofFn_eq_map, List.zip_map', List.filter_map]
  rfl

theorem period?_eq (real : ∀ t i, held.cell t i = finite (held.cell t i).toReal) (rate : ℝ)
    (forward : Panel Extended periods instruments) (t : Fin periods) :
    period? (finite rate) (heldBefore held t) (held.row t) (forward.row t) =
      if traded forward t = [] then none
      else some ⟨finite (gross held forward t - cost rate held t),
        finite (change (holding held t) (holding held (t + 1)))⟩ := by
  have trades : tradable (held.row t) (forward.row t) =
      (traded forward t).map fun i => (finite (held.cell t i).toReal, forward.cell t i) := by
    rw [Panel.row_eq, funext (real t), tradable_eq]
    rfl
  rw [period?, trades, turnover_eq real]
  by_cases none : traded forward t = []
  · simp [none]
  · have some : ((traded forward t).length : ℝ) ≠ 0 := by
      simpa using none
    have products : ((traded forward t).map fun i =>
          finite (held.cell t i).toReal * forward.cell t i) =
        ((traded forward t).map fun i =>
          (held.cell t i).toReal * (forward.cell t i).toReal).map finite := by
      rw [List.map_map]
      refine List.map_congr_left fun i member => ?_
      obtain ⟨r, known⟩ := exists_real (List.mem_filter.mp member).2
      simp [known]
    rw [if_neg none]
    simp only [List.isEmpty_map, List.isEmpty_iff, none, if_false, List.length_map, List.map_map]
    change Option.some (Period.mk (Scalar.total ((traded forward t).map fun i =>
      finite (held.cell t i).toReal * forward.cell t i) / Scalar.ofNat (traded forward t).length -
        finite rate * finite (change (holding held t) (holding held (t + 1)))) _) = _
    rw [products, total_finite, ofNat_eq, div_finite _ some, mul_finite, sub_finite]
    rfl

/-! ## Changes over a stretch of periods -/

theorem change_self (positions : Fin instruments → ℝ) : change positions positions = 0 := by
  simp [change]

theorem change_triangle (before between after : Fin instruments → ℝ) :
    change before after ≤ change before between + change between after := by
  rw [change, change, change, ← add_div, ← Finset.sum_add_distrib]
  refine div_le_div_of_nonneg_right (Finset.sum_le_sum fun i _ => ?_) (Nat.cast_nonneg _)
  rw [add_comm]
  exact abs_sub_le (after i) (between i) (before i)

theorem change_le_sum_cost {rate : ℝ} (nonnegative : 0 ≤ rate)
    (held : Panel Extended periods instruments) {m n : Nat} (ordered : m ≤ n) :
    rate * change (holding held m) (holding held n) ≤ ∑ s ∈ Finset.Ico m n, cost rate held s := by
  induction n, ordered using Nat.le_induction with
  | base => simp [change_self]
  | succ n ordered ih =>
    rw [Finset.sum_Ico_succ_top ordered]
    calc rate * change (holding held m) (holding held (n + 1))
        ≤ rate * (change (holding held m) (holding held n) +
            change (holding held n) (holding held (n + 1))) :=
          mul_le_mul_of_nonneg_left (change_triangle _ _ _) nonnegative
      _ = rate * change (holding held m) (holding held n) + cost rate held n := mul_add _ _ _
      _ ≤ _ := by gcongr

theorem run_returns (settings : RewardSettings Extended) (rate : ℝ)
    (charged : settings.costRate = finite rate)
    (factor forward : Panel Extended periods instruments) :
    (run settings factor forward).returns =
      ((List.finRange periods).filter fun t => traded forward t ≠ []).map fun t =>
        finite (gross (positions settings factor) forward t -
          cost rate (positions settings factor) t) := by
  change (evaluatedPeriods settings factor forward).map Period.net = _
  rw [evaluatedPeriods_eq, charged, List.map_filterMap, ← List.filterMap_eq_map,
    List.filterMap_filter]
  congr 1
  funext t
  rw [period?_eq (cell_positions settings factor)]
  by_cases none : traded forward t = [] <;> simp [none]

/-- Every evaluated period returns its gross return less the cost of the change from the positions
of the period before it.  The costs of a stretch of periods, had none of them been skipped, cover
the change over the whole stretch. -/
theorem returns_net_of_cost (settings : RewardSettings Extended) (rate : ℝ)
    (charged : settings.costRate = finite rate) (nonnegative : 0 ≤ rate)
    (factor forward : Panel Extended periods instruments) :
    (run settings factor forward).returns =
        ((List.finRange periods).filter fun t => traded forward t ≠ []).map (fun t =>
          finite (gross (positions settings factor) forward t -
            cost rate (positions settings factor) t)) ∧
      ∀ m n, m ≤ n →
        rate * change (holding (positions settings factor) m)
            (holding (positions settings factor) (n + 1)) ≤
          (∑ s ∈ Finset.Ico m n, cost rate (positions settings factor) s) +
            cost rate (positions settings factor) n := by
  refine ⟨run_returns settings rate charged factor forward, ?_⟩
  intro m n ordered
  rw [← Finset.sum_Ico_succ_top ordered]
  exact change_le_sum_cost nonnegative _ (Nat.le_succ_of_le ordered)

/-! ## A change that is not paid for -/

noncomputable def parting : Panel Extended 3 2 :=
  ⟨#v[#v[finite 0, finite 0], #v[finite (-1), finite 1], #v[finite (-1), finite 1]]⟩

noncomputable def gap : Panel Extended 3 2 :=
  ⟨#v[#v[finite 0, finite 0], #v[missing, missing], #v[finite 0.01, finite 0.02]]⟩

theorem opposed_positions :
    (Kernel.zScoreRow ([-1, 1].map finite)).map (positionOf (finite 0.5)) =
      [finite (-1), finite 1] := by
  rw [zScoreRow_finite [-1, 1] 0 1 (by norm_num) (by norm_num)]
  norm_num [positionOf_finite]

theorem positions_parting (t : Fin 3) (i : Fin 2) : (positions .defaults parting).cell t i =
    finite (if t = 0 then 0 else if i = 0 then -1 else 1) := by
  have level : (Kernel.zScoreRow ([0, 0].map finite)).map (positionOf (finite 0.5)) =
      [finite 0, finite 0] := by
    rw [zScoreRow_finite [0, 0] 0 0 (by norm_num) (by norm_num)]
    norm_num [positionOf_finite]
  have row : (positions .defaults parting).row t =
      List.ofFn fun i : Fin 2 => finite (if t = 0 then 0 else if i = 0 then -1 else 1) := by
    rw [row_positions]
    fin_cases t
    · exact level
    · exact opposed_positions
    · exact opposed_positions
  exact Panel.cell_of_row row i

theorem holding_parting (t : Fin 3) : holding (positions .defaults parting) (t + 1) =
    fun i => if t = 0 then 0 else if i = 0 then -1 else 1 := by
  rw [holding_succ]
  simp [positions_parting]

/-- The second period turns both positions and is skipped, so that the third one returns its gross
return in full: the whole change since the first period is not paid for. -/
theorem parting_unpaid :
    (RewardSettings.defaults : RewardSettings Extended).costRate = finite 0.001 ∧
    traded gap 0 ≠ [] ∧ traded gap 1 = [] ∧ traded gap 2 ≠ [] ∧
    (run .defaults parting gap).returns = [finite 0, finite 0.005] ∧
    gross (positions .defaults parting) gap 2 = 0.005 ∧
    change (holding (positions .defaults parting) 1) (holding (positions .defaults parting) 3) =
      1 := by
  have charged : (RewardSettings.defaults : RewardSettings Extended).costRate =
      finite 0.001 := rfl
  have first : traded gap 0 = [0, 1] := rfl
  have second : traded gap 1 = [] := rfl
  have third : traded gap 2 = [0, 1] := rfl
  have evaluated : (List.finRange 3).filter (fun t => traded gap t ≠ []) = [0, 2] := rfl
  have start : holding (positions .defaults parting) 0 = fun _ => 0 := rfl
  have flat : holding (positions .defaults parting) 1 = fun _ => 0 := holding_parting 0
  have parted : holding (positions .defaults parting) 2 = fun i => if i = 0 then -1 else 1 :=
    holding_parting 1
  have kept : holding (positions .defaults parting) 3 = fun i => if i = 0 then -1 else 1 :=
    holding_parting 2
  have gross₀ : gross (positions .defaults parting) gap 0 = 0 := by
    rw [gross, first]
    simp [positions_parting]
  have gross₂ : gross (positions .defaults parting) gap 2 = 0.005 := by
    have lost : gap.cell 2 0 = finite 0.01 := rfl
    have won : gap.cell 2 1 = finite 0.02 := rfl
    have later : (2 : Fin 3) ≠ 0 := by decide
    rw [gross, third]
    norm_num [positions_parting, lost, won, later]
  have cost₀ : cost 0.001 (positions .defaults parting) (0 : Fin 3) = 0 := by
    simp [cost, change, start, flat]
  have cost₂ : cost 0.001 (positions .defaults parting) (2 : Fin 3) = 0 := by
    simp [cost, change, parted, kept]
  refine ⟨charged, ?_, second, ?_, ?_, gross₂, ?_⟩
  · simp [first]
  · simp [third]
  · rw [run_returns .defaults _ charged, evaluated, List.map_cons, List.map_cons, List.map_nil,
      gross₀, gross₂, cost₀, cost₂, sub_zero, sub_zero]
  · norm_num [change, flat, kept]

theorem parting_paid :
    (RewardSettings.defaults : RewardSettings Extended).costRate = finite 0.001 ∧
    (0 : ℝ) ≤ 0.001 ∧
    0.001 * change (holding (positions .defaults parting) 1)
        (holding (positions .defaults parting) 3) ≤
      (∑ s ∈ Finset.Ico 1 2, cost 0.001 (positions .defaults parting) s) +
        cost 0.001 (positions .defaults parting) 2 := by
  have charged : (RewardSettings.defaults : RewardSettings Extended).costRate =
      finite 0.001 := rfl
  have nonnegative : (0 : ℝ) ≤ 0.001 := by norm_num
  have paid := returns_net_of_cost .defaults 0.001 charged nonnegative parting gap
  exact ⟨charged, nonnegative, paid.2 1 2 (by omega)⟩

end Backtest

end FactorSearch
