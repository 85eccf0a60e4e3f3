import FactorSearch.Proofs.Exact.Extended
import Mathlib

/-!
# Averages and comoments

The average of a quantity over items, and the comoment of two quantities: the sum of the products of
their distances from their averages.  A comoment does not see a shift of either quantity and is
linear in each.  The comoment of a quantity with itself is nothing only for a constant one, and
bounds those with others.
-/

set_option autoImplicit false

namespace FactorSearch

namespace Statistics

variable {ι κ : Type}

noncomputable def average (items : List ι) (f : ι → ℝ) : ℝ := (items.map f).sum / items.length

noncomputable def comoment (items : List ι) (f g : ι → ℝ) : ℝ :=
  (items.map fun i => (f i - average items f) * (g i - average items g)).sum

/-- The quantity has one value on all items. -/
def Constant (items : List ι) (f : ι → ℝ) : Prop := ∃ c, ∀ i ∈ items, f i = c

variable {items : List ι} {f g h : ι → ℝ}

theorem average_congr (same : ∀ i ∈ items, f i = h i) : average items f = average items h := by
  rw [average, average, List.map_congr_left same]

theorem average_map (items : List κ) (m : κ → ι) (f : ι → ℝ) :
    average (items.map m) f = average items fun i => f (m i) := by
  rw [average, average, List.map_map, List.length_map]
  rfl

theorem average_neg (items : List ι) (f : ι → ℝ) :
    average items (fun i => -f i) = -average items f := by
  rw [average, average, ← neg_div, List.sum_neg, List.map_map]
  rfl

theorem average_affine (some : items ≠ []) (a b : ℝ) (f : ι → ℝ) :
    average items (fun i => a * f i + b) = a * average items f + b := by
  have count : (items.length : ℝ) ≠ 0 := by simpa using some
  rw [average, average, List.sum_map_add, List.sum_map_mul_left, List.map_const',
    List.sum_replicate, nsmul_eq_mul]
  field_simp

theorem average_of_level (some : items ≠ []) {c : ℝ} (level : ∀ i ∈ items, f i = c) :
    average items f = c := by
  have constant := average_affine some 0 c f
  rw [zero_mul, zero_add] at constant
  rw [← constant]
  exact average_congr fun i member => by rw [level i member, zero_mul, zero_add]

theorem average_le (order : ∀ i ∈ items, f i ≤ g i) : average items f ≤ average items g :=
  div_le_div_of_nonneg_right (List.sum_le_sum order) (Nat.cast_nonneg _)

theorem average_bounds {a b : ℝ} (least : a ≤ 0) (most : 0 ≤ b)
    (within : ∀ i ∈ items, a ≤ f i ∧ f i ≤ b) : a ≤ average items f ∧ average items f ≤ b := by
  rcases eq_or_ne items [] with rfl | some
  · simpa [average] using ⟨least, most⟩
  · have level (c : ℝ) : average items (fun _ => c) = c := average_of_level some fun _ _ => rfl
    rw [← level a, ← level b]
    exact ⟨average_le fun i member => (within i member).1,
      average_le fun i member => (within i member).2⟩

/-! ## Comoments -/

theorem comoment_congr (first : ∀ i ∈ items, f i = h i) :
    comoment items f g = comoment items h g := by
  rw [comoment, comoment, average_congr first]
  congr 1
  refine List.map_congr_left fun i member => ?_
  rw [first i member]

theorem comoment_map (items : List κ) (m : κ → ι) (f g : ι → ℝ) :
    comoment (items.map m) f g = comoment items (fun i => f (m i)) fun i => g (m i) := by
  rw [comoment, comoment, average_map, average_map, List.map_map]
  rfl

theorem comoment_comm (items : List ι) (f g : ι → ℝ) :
    comoment items f g = comoment items g f := by
  simp only [comoment, mul_comm]

theorem comoment_affine (items : List ι) (a b : ℝ) (f g : ι → ℝ) :
    comoment items (fun i => a * f i + b) g = a * comoment items f g := by
  rcases eq_or_ne items [] with rfl | some
  · simp [comoment]
  · rw [comoment, comoment, average_affine some, ← List.sum_map_mul_left]
    congr 1
    refine List.map_congr_left fun i _ => ?_
    ring

theorem comoment_self_affine (items : List ι) (a b : ℝ) (f : ι → ℝ) :
    comoment items (fun i => a * f i + b) (fun i => a * f i + b) = a ^ 2 * comoment items f f := by
  rw [comoment_affine, comoment_comm, comoment_affine]
  ring

theorem comoment_self_nonneg (items : List ι) (f : ι → ℝ) : 0 ≤ comoment items f f := by
  refine List.sum_nonneg fun square member => ?_
  obtain ⟨i, -, rfl⟩ := List.mem_map.mp member
  exact mul_self_nonneg _

/-- What the average square has above the square of the average, once for each item. -/
theorem comoment_self_eq (items : List ι) (f : ι → ℝ) :
    comoment items f f =
      items.length * (average items (fun i => f i ^ 2) - average items f ^ 2) := by
  rcases eq_or_ne items [] with rfl | some
  · simp [comoment]
  · have count : (items.length : ℝ) ≠ 0 := by simpa using some
    have total (q : ι → ℝ) : (items.map q).sum = items.length * average items q := by
      rw [average, mul_div_cancel₀ _ count]
    have expand (i : ι) : (f i - average items f) * (f i - average items f) =
        f i ^ 2 + (-(2 * average items f) * f i + average items f ^ 2) := by
      ring
    simp only [comoment, expand]
    rw [List.sum_map_add, List.sum_map_add, List.sum_map_mul_left, List.map_const',
      List.sum_replicate, nsmul_eq_mul, total, total]
    ring

theorem comoment_self_eq_zero_iff (items : List ι) (f : ι → ℝ) :
    comoment items f f = 0 ↔ Constant items f := by
  constructor
  · intro nothing
    refine ⟨average items f, fun i member => ?_⟩
    have square : (f i - average items f) * (f i - average items f) = 0 := by
      refine le_antisymm ?_ (mul_self_nonneg _)
      rw [← nothing]
      refine List.single_le_sum ?_ _ (List.mem_map.mpr ⟨i, member, rfl⟩)
      intro square inside
      obtain ⟨j, -, rfl⟩ := List.mem_map.mp inside
      exact mul_self_nonneg _
    exact sub_eq_zero.mp (mul_self_eq_zero.mp square)
  · rintro ⟨c, level⟩
    rw [comoment_congr (h := fun i => 0 * f i + c) (fun i member => by rw [level i member]; ring),
      comoment_affine, zero_mul]

theorem sq_average_le (items : List ι) (f : ι → ℝ) :
    average items f ^ 2 ≤ average items fun i => f i ^ 2 := by
  rcases eq_or_ne items [] with rfl | some
  · simp [average]
  · have count : (0 : ℝ) < items.length := Nat.cast_pos.mpr (List.length_pos_iff.mpr some)
    have excess := comoment_self_nonneg items f
    rw [comoment_self_eq] at excess
    exact sub_nonneg.mp (nonneg_of_mul_nonneg_right excess count)

theorem constant_of_sq_average_eq {items : List ι} {f : ι → ℝ}
    (level : average items f ^ 2 = average items fun i => f i ^ 2) : Constant items f := by
  rw [← comoment_self_eq_zero_iff, comoment_self_eq, level, sub_self, mul_zero]

/-- The Cauchy-Schwarz inequality for distances from the averages. -/
theorem comoment_sq_le (items : List ι) (f g : ι → ℝ) :
    comoment items f g ^ 2 ≤ comoment items f f * comoment items g g := by
  have indexed (q : ι → ℝ) : (items.map q).sum = ∑ k : Fin items.length, q items[k] :=
    (Fin.sum_univ_fun_getElem items q).symm
  simp only [comoment, indexed, ← pow_two]
  exact Finset.sum_mul_sq_le_sq_mul_sq ..

/-! ## Moments in exact arithmetic -/

open Extended

theorem mean_eq_average (values : List ℝ) :
    mean (values.map finite) = finite (average values id) := by
  rw [mean_finite, average, List.map_id]

theorem deviation_eq_comoment (values : List ℝ) :
    deviation (values.map finite) = finite √(comoment values id id / values.length) := by
  rw [deviation_finite, comoment, average, List.map_id]
  simp only [id_eq, pow_two]

end Statistics

end FactorSearch
