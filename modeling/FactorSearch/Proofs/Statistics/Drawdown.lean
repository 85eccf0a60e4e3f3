import FactorSearch.Proofs.Exact.Scalar
import FactorSearch.Statistics.Risk

/-!
# Drawdown as the worst pair of values

In exact arithmetic one pass with a running peak finds the largest relative loss over all pairs of
an earlier and a later value: for a later value that is not negative, no earlier value gives a
larger loss than the peak.
-/

set_option autoImplicit false

namespace FactorSearch

namespace Statistics

/-- The losses from a positive value of a curve to the same or a later value, as fractions of the
first. -/
def pairLosses (curve : List ℝ) : Set ℝ :=
  {loss | ∃ i j : Fin curve.length, i ≤ j ∧ 0 < curve[i] ∧ loss = (curve[i] - curve[j]) / curve[i]}

theorem mem_pairLosses_iff (curve : List ℝ) (loss : ℝ) :
    loss ∈ pairLosses curve ↔ ∃ i j : Nat, ∃ high low : ℝ, i ≤ j ∧ curve[i]? = some high ∧
      curve[j]? = some low ∧ 0 < high ∧ loss = (high - low) / high := by
  constructor
  · rintro ⟨i, j, ordered, positive, rfl⟩
    exact ⟨i, j, curve[i], curve[j], ordered, List.getElem?_eq_getElem i.isLt,
      List.getElem?_eq_getElem j.isLt, positive, rfl⟩
  · rintro ⟨i, j, high, low, ordered, first, second, positive, rfl⟩
    obtain ⟨inside, rfl⟩ := List.getElem?_eq_some_iff.mp first
    obtain ⟨within, rfl⟩ := List.getElem?_eq_some_iff.mp second
    exact ⟨⟨i, inside⟩, ⟨j, within⟩, ordered, positive, rfl⟩

/-- The losses from the positive ones of some values to a last value. -/
def lossesTo (last : ℝ) (values : List ℝ) : Set ℝ :=
  {loss | ∃ high ∈ values, 0 < high ∧ loss = (high - last) / high}

theorem pairLosses_snoc (curve : List ℝ) (last : ℝ) :
    pairLosses (curve ++ [last]) = pairLosses curve ∪ lossesTo last (curve ++ [last]) := by
  ext loss
  rw [Set.mem_union, mem_pairLosses_iff, mem_pairLosses_iff]
  constructor
  · rintro ⟨i, j, high, low, ordered, first, second, positive, rfl⟩
    rcases Nat.lt_or_ge j curve.length with before | behind
    · left
      rw [List.getElem?_append_left before] at second
      rw [List.getElem?_append_left (by omega)] at first
      exact ⟨i, j, high, low, ordered, first, second, positive, rfl⟩
    · right
      have final : j = curve.length := by
        have within := (List.getElem?_eq_some_iff.mp second).1
        rw [List.length_append, List.length_singleton] at within
        omega
      rw [final, List.getElem?_concat_length] at second
      cases second
      exact ⟨high, List.mem_of_getElem? first, positive, rfl⟩
  · rintro (⟨i, j, high, low, ordered, first, second, positive, rfl⟩ |
      ⟨high, member, positive, rfl⟩)
    · have kept {k : Nat} {value : ℝ} (found : curve[k]? = some value) :
          (curve ++ [last])[k]? = some value := by
        rw [List.getElem?_append_left (List.getElem?_eq_some_iff.mp found).1, found]
      exact ⟨i, j, high, low, ordered, kept first, kept second, positive, rfl⟩
    · obtain ⟨i, within, rfl⟩ := List.mem_iff_getElem.mp member
      refine ⟨i, curve.length, _, last, ?_, List.getElem?_eq_getElem within,
        List.getElem?_concat_length .., positive, rfl⟩
      rw [List.length_append, List.length_singleton] at within
      omega

/-- A higher start loses a larger fraction on the way to the same value. -/
theorem lossesTo_isGreatest {last peak : ℝ} {values : List ℝ} (nonneg : 0 ≤ last)
    (top : IsGreatest {v | v ∈ values} peak) (positive : 0 < peak) :
    IsGreatest (lossesTo last values) ((peak - last) / peak) := by
  refine ⟨⟨peak, top.1, positive, rfl⟩, ?_⟩
  rintro loss ⟨high, member, above, rfl⟩
  rw [sub_div, sub_div, div_self above.ne', div_self positive.ne']
  exact sub_le_sub_left (div_le_div_of_nonneg_left nonneg above (top.2 member)) 1

theorem lossesTo_eq_empty {last peak : ℝ} {values : List ℝ}
    (top : IsGreatest {v | v ∈ values} peak) (none : ¬ 0 < peak) : lossesTo last values = ∅ := by
  rw [Set.eq_empty_iff_forall_notMem]
  rintro loss ⟨high, member, above, -⟩
  exact none (above.trans_le (top.2 member))

/-! ## One step of the pass -/

theorem fallFromPeak_real (peak worst value : ℝ) :
    fallFromPeak peak worst value =
      (max peak value,
        if 0 < max peak value then max worst ((max peak value - value) / max peak value)
        else worst) := by
  have raised : (if peak < value then value else peak) = max peak value := (max_def_lt _ _).symm
  simp only [fallFromPeak, Scalar.lt_real, Scalar.zero_real, decide_eq_true_eq, raised]
  rw [← max_def_lt]
  split <;> rfl

theorem fallFromPeak_scale {scale : ℝ} (positive : 0 < scale) (peak worst value : ℝ) :
    fallFromPeak (scale * peak) worst (scale * value) =
      (scale * (fallFromPeak peak worst value).1, (fallFromPeak peak worst value).2) := by
  have loss (high low : ℝ) :
      (scale * high - scale * low) / (scale * high) = (high - low) / high := by
    rw [← mul_sub, mul_div_mul_left _ _ positive.ne']
  simp only [fallFromPeak_real, ← mul_max_of_nonneg _ _ positive.le, loss,
    mul_pos_iff_of_pos_left positive]

theorem le_fallFromPeak (peak worst value : ℝ) : worst ≤ (fallFromPeak peak worst value).2 := by
  rw [fallFromPeak_real]
  dsimp only
  split
  · exact le_max_left _ _
  · exact le_rfl

/-- What the pass holds after the values seen: the largest of them, and the worst loss. -/
structure Tracked (seen : List ℝ) (peak worst : ℝ) : Prop where
  peak : IsGreatest {value | value ∈ seen} peak
  worst : IsGreatest (insert 0 (pairLosses seen)) worst

theorem tracked_singleton (first : ℝ) : Tracked [first] first 0 := by
  refine ⟨⟨List.mem_singleton_self first, fun value member => (List.mem_singleton.mp member).le⟩,
    Set.mem_insert .., ?_⟩
  rintro loss (rfl | ⟨i, j, -, -, rfl⟩)
  · exact le_rfl
  · have same : i = j := Subsingleton.elim (α := Fin 1) i j
    rw [same, sub_self, zero_div]

theorem Tracked.step {seen : List ℝ} {peak worst value : ℝ} (tracked : Tracked seen peak worst)
    (nonneg : 0 ≤ value) :
    Tracked (seen ++ [value]) (fallFromPeak peak worst value).1
      (fallFromPeak peak worst value).2 := by
  have top : IsGreatest {v | v ∈ seen ++ [value]} (max peak value) := by
    have joined : {v | v ∈ seen ++ [value]} = {v | v ∈ seen} ∪ {value} := by
      ext v
      exact List.mem_append.trans (or_congr_right List.mem_singleton)
    rw [joined]
    exact tracked.peak.union isGreatest_singleton
  rw [fallFromPeak_real]
  refine ⟨top, ?_⟩
  rw [pairLosses_snoc, ← Set.insert_union]
  dsimp only
  split
  · rename_i positive
    exact tracked.worst.union (lossesTo_isGreatest nonneg top positive)
  · rename_i none
    rw [lossesTo_eq_empty top none, Set.union_empty]
    exact tracked.worst

/-! ## The whole pass -/

noncomputable def pass (state : ℝ × ℝ) (values : List ℝ) : ℝ × ℝ :=
  values.foldl (fun state value => fallFromPeak state.1 state.2 value) state

theorem maxDrawdown_cons (first : ℝ) (rest : List ℝ) :
    maxDrawdown (first :: rest) = (pass (first, 0) rest).2 := by
  have started : fallFromPeak first 0 first = (first, 0) := by
    rw [fallFromPeak_real, max_self, sub_self, zero_div, max_self, ite_self]
  simp only [maxDrawdown, pass, Scalar.zero_real, List.foldl_cons, started]

theorem Tracked.pass {seen : List ℝ} {state : ℝ × ℝ} (tracked : Tracked seen state.1 state.2)
    (rest : List ℝ) (nonneg : ∀ v ∈ rest, 0 ≤ v) :
    Tracked (seen ++ rest) (pass state rest).1 (pass state rest).2 := by
  induction rest generalizing seen state with
  | nil => rwa [List.append_nil]
  | cons value rest ih =>
    obtain ⟨here, later⟩ := List.forall_mem_cons.mp nonneg
    rw [List.append_cons]
    exact ih (tracked.step here) later

theorem le_pass (state : ℝ × ℝ) (values : List ℝ) : state.2 ≤ (pass state values).2 := by
  induction values generalizing state with
  | nil => exact le_rfl
  | cons value rest ih => exact (le_fallFromPeak ..).trans (ih _)

theorem pass_scale {scale : ℝ} (positive : 0 < scale) (state : ℝ × ℝ) (values : List ℝ) :
    pass (scale * state.1, state.2) (values.map (scale * ·)) =
      (scale * (pass state values).1, (pass state values).2) := by
  induction values generalizing state with
  | nil => rfl
  | cons value rest ih =>
    rw [pass, List.map_cons, List.foldl_cons, fallFromPeak_scale positive]
    exact ih _

theorem maxDrawdown_isGreatest (curve : List ℝ) (nonneg : ∀ v ∈ curve, 0 ≤ v) :
    IsGreatest (insert 0 (pairLosses curve)) (maxDrawdown curve) := by
  cases curve with
  | nil =>
    refine ⟨Or.inl Scalar.zero_real, ?_⟩
    rintro loss (rfl | ⟨i, -⟩)
    · exact Scalar.zero_real.ge
    · exact i.elim0
  | cons first rest =>
    rw [maxDrawdown_cons]
    have tracked : Tracked [first] (first, (0 : ℝ)).1 (first, (0 : ℝ)).2 := tracked_singleton first
    exact (tracked.pass rest (List.forall_mem_cons.mp nonneg).2).worst

theorem pairLosses_le_one {curve : List ℝ} (nonneg : ∀ v ∈ curve, 0 ≤ v) {loss : ℝ}
    (member : loss ∈ pairLosses curve) : loss ≤ 1 := by
  obtain ⟨i, j, -, positive, rfl⟩ := member
  rw [div_le_one positive]
  exact sub_le_self _ (nonneg _ (List.getElem_mem _))

theorem maxDrawdown_scale {scale : ℝ} (positive : 0 < scale) (curve : List ℝ) :
    maxDrawdown (curve.map (scale * ·)) = maxDrawdown curve := by
  cases curve with
  | nil => rfl
  | cons first rest =>
    have scaled := pass_scale positive (first, 0) rest
    rw [List.map_cons, maxDrawdown_cons, maxDrawdown_cons, scaled]

theorem maxDrawdown_append_le (curve later : List ℝ) :
    maxDrawdown curve ≤ maxDrawdown (curve ++ later) := by
  cases curve with
  | nil =>
    cases later with
    | nil => exact le_rfl
    | cons first rest =>
      rw [List.nil_append, maxDrawdown_cons]
      exact Scalar.zero_real.trans_le (le_pass (first, 0) rest)
  | cons first rest =>
    rw [List.cons_append, maxDrawdown_cons, maxDrawdown_cons, pass, pass, List.foldl_append]
    exact le_pass _ later

/-- On a curve without negative values the drawdown is the worst loss over all pairs, or zero where
no pair loses.  It is a fraction, does not depend on the unit of the curve, and only grows as the
curve goes on. -/
theorem maxDrawdown_worst_pair (curve : List ℝ) (nonneg : ∀ v ∈ curve, 0 ≤ v) :
    IsGreatest (insert 0 (pairLosses curve)) (maxDrawdown curve) ∧
      maxDrawdown curve ∈ Set.Icc 0 1 ∧
      (∀ scale, 0 < scale → maxDrawdown (curve.map (scale * ·)) = maxDrawdown curve) ∧
      ∀ later, maxDrawdown curve ≤ maxDrawdown (curve ++ later) := by
  obtain ⟨attained, bound⟩ := maxDrawdown_isGreatest curve nonneg
  refine ⟨⟨attained, bound⟩, ⟨bound (Set.mem_insert ..), ?_⟩,
    fun scale positive => maxDrawdown_scale positive curve, maxDrawdown_append_le curve⟩
  rcases attained with none | pair
  · rw [none]
    exact zero_le_one
  · exact pairLosses_le_one nonneg pair

/-- A curve that starts at zero; the worst loss is the one before the highest peak. -/
theorem early_fall_worst :
    (∀ v ∈ [(0 : ℝ), 4, 1, 5, 2], 0 ≤ v) ∧ maxDrawdown [(0 : ℝ), 4, 1, 5, 2] = 3 / 4 ∧
      3 / 4 ∈ upperBounds (pairLosses [0, 4, 1, 5, 2]) ∧
      maxDrawdown ([(0 : ℝ), 4, 1, 5, 2].map (3 * ·)) = 3 / 4 ∧
      ∀ later, 3 / 4 ≤ maxDrawdown ([(0 : ℝ), 4, 1, 5, 2] ++ later) := by
  have nonneg : ∀ v ∈ [(0 : ℝ), 4, 1, 5, 2], 0 ≤ v := by
    simp
  have value : maxDrawdown [(0 : ℝ), 4, 1, 5, 2] = 3 / 4 := by
    norm_num [maxDrawdown_cons, pass, fallFromPeak_real]
  obtain ⟨⟨-, bound⟩, -, scales, grows⟩ := maxDrawdown_worst_pair [0, 4, 1, 5, 2] nonneg
  rw [value] at bound scales grows
  exact ⟨nonneg, value, fun loss member => bound (Set.mem_insert_of_mem _ member),
    scales 3 three_pos, grows⟩

end Statistics

end FactorSearch
