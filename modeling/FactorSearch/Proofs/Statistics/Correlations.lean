import Mathlib
import FactorSearch.Proofs.Exact.Images
import FactorSearch.Proofs.Statistics.Comoments
import FactorSearch.Proofs.Statistics.Symmetry

/-!
# Correlations of real quantities

In exact arithmetic the Pearson correlation of two quantities is their comoment, in units of the
root of the comoments that each has with itself; where one of these is zero there is none.  It is
within one of zero, has no side, and follows a change of scale of a quantity by sign only.  The
Spearman correlation is that of the places of the quantities, which an order-preserving change
leaves alone and a change of sign mirrors.
-/

set_option autoImplicit false

namespace FactorSearch

namespace Statistics

open Extended

variable {ι : Type} {items : List ι} {f g h : ι → ℝ}

/-- The correlation of two quantities that both vary. -/
noncomputable def correlation (items : List ι) (f g : ι → ℝ) : Option ℝ :=
  if 0 < comoment items f f * comoment items g g then
    some (comoment items f g / √(comoment items f f * comoment items g g))
  else none

theorem correlation_congr (first : ∀ i ∈ items, f i = h i) :
    correlation items f g = correlation items h g := by
  have itself : comoment items f f = comoment items h h := by
    rw [comoment_congr first, comoment_comm, comoment_congr first]
  rw [correlation, correlation, itself, comoment_congr first]

/-- Two quantities that rise together from one item to another are fully correlated. -/
theorem correlation_pair {a b : ι} (first : f a < f b) (second : g a < g b) :
    correlation [a, b] f g = some 1 := by
  have product (p q : ι → ℝ) : comoment [a, b] p q = (p b - p a) * (q b - q a) / 2 := by
    simp only [comoment, average, List.map_cons, List.map_nil, List.sum_cons, List.sum_nil,
      List.length_cons, List.length_nil]
    push_cast
    ring
  have rise : 0 < (f b - f a) * (g b - g a) / 2 :=
    half_pos (mul_pos (sub_pos.mpr first) (sub_pos.mpr second))
  have square : comoment [a, b] f f * comoment [a, b] g g =
      ((f b - f a) * (g b - g a) / 2) ^ 2 := by
    rw [product, product]
    ring
  rw [correlation, square, if_pos (pow_pos rise 2), Real.sqrt_sq rise.le, product,
    div_self rise.ne']

theorem correlation_comm (items : List ι) (f g : ι → ℝ) :
    correlation items f g = correlation items g f := by
  rw [correlation, correlation, comoment_comm items f g, mul_comm]

/-- Of a change of scale and origin only the sign of the scale is left. -/
theorem correlation_affine {a : ℝ} (nonzero : a ≠ 0) (b : ℝ) (f g : ι → ℝ) :
    correlation items (fun i => a * f i + b) g =
      (correlation items f g).map fun r => a / |a| * r := by
  have square : 0 < a ^ 2 := sq_pos_of_ne_zero nonzero
  have scaled : comoment items (fun i => a * f i + b) (fun i => a * f i + b) *
        comoment items g g = a ^ 2 * (comoment items f f * comoment items g g) := by
    rw [comoment_self_affine, mul_assoc]
  rw [correlation, correlation, scaled, comoment_affine, Real.sqrt_mul square.le,
    Real.sqrt_sq_eq_abs, mul_div_mul_comm]
  by_cases vary : 0 < comoment items f f * comoment items g g
  · rw [if_pos vary, if_pos (mul_pos square vary), Option.map_some]
  · rw [if_neg vary, if_neg (mt (pos_of_mul_pos_right · square.le) vary), Option.map_none]

theorem correlation_rescale {a : ℝ} (positive : 0 < a) (b : ℝ) (f g : ι → ℝ) :
    correlation items (fun i => a * f i + b) g = correlation items f g := by
  rw [correlation_affine positive.ne', abs_of_pos positive, div_self positive.ne']
  simp

theorem correlation_mirror (c : ℝ) (f g : ι → ℝ) :
    correlation items (fun i => c - f i) g = (correlation items f g).map fun r => -r := by
  have turned : (fun i => c - f i) = fun i => -1 * f i + c := by
    funext i
    ring
  rw [turned, correlation_affine (by norm_num)]
  simp

theorem correlation_bounds {r : ℝ} (correlated : correlation items f g = some r) :
    -1 ≤ r ∧ r ≤ 1 := by
  rw [correlation] at correlated
  split at correlated
  · rename_i vary
    cases correlated
    rw [← abs_le, abs_div, abs_of_nonneg (Real.sqrt_nonneg _), div_le_one (Real.sqrt_pos.mpr vary)]
    exact Real.abs_le_sqrt (comoment_sq_le items f g)
  · cases correlated

theorem correlation_eq_none_iff :
    correlation items f g = none ↔ Constant items f ∨ Constant items g := by
  have product := mul_nonneg (comoment_self_nonneg items f) (comoment_self_nonneg items g)
  rw [← comoment_self_eq_zero_iff, ← comoment_self_eq_zero_iff, ← mul_eq_zero, correlation]
  constructor
  · intro none
    by_contra nonzero
    rw [if_pos (lt_of_le_of_ne product (Ne.symm nonzero))] at none
    cases none
  · intro zero
    rw [if_neg zero.not_gt]

theorem constant_of_length_lt_two (short : items.length < 2) (f : ι → ℝ) : Constant items f := by
  match items with
  | [] => exact ⟨0, fun i member => nomatch member⟩
  | [i] => exact ⟨f i, fun j member => by rw [List.mem_singleton.mp member]⟩
  | _ :: _ :: _ => simp at short

/-! ## Pearson correlation -/

theorem total_finite_map (items : List ι) (f : ι → ℝ) :
    Scalar.total (items.map fun i => finite (f i)) = finite (items.map f).sum := by
  rw [← total_finite, List.map_map]
  rfl

theorem quotient_finite (dividend : ℝ) {square : ℝ} (nonnegative : 0 ≤ square) :
    (if (Scalar.lt 0 (Scalar.sqrt (finite square)) &&
        Scalar.isFinite (Scalar.sqrt (finite square))) = true then
      some (finite dividend / Scalar.sqrt (finite square)) else none) =
      (if 0 < square then some (dividend / √square) else none).map finite := by
  rw [sqrt_finite nonnegative, zero_eq, lt_finite, isFinite_finite, Bool.and_true]
  simp only [decide_eq_true_iff, Real.sqrt_pos]
  by_cases positive : 0 < square
  · rw [if_pos positive, if_pos positive, div_finite _ (Real.sqrt_pos.mpr positive).ne',
      Option.map_some]
  · rw [if_neg positive, if_neg positive, Option.map_none]

/-- Lists that are too short need no case: on them a quantity is constant. -/
theorem pearson_finite (items : List ι) (f g : ι → ℝ) :
    pearson (items.map fun i => finite (f i)) (items.map fun i => finite (g i)) =
      (correlation items f g).map finite := by
  rw [pearson, List.zip_map']
  by_cases short : items.length < 2
  · have none : correlation items f g = none :=
      correlation_eq_none_iff.mpr (.inl (constant_of_length_lt_two short f))
    simp [short, none]
  · have count : (items.length : ℝ) ≠ 0 := by
      exact_mod_cast (by omega : items.length ≠ 0)
    have product := mul_nonneg (comoment_self_nonneg items f) (comoment_self_nonneg items g)
    have sums (p q : ι → ℝ) (a b : ℝ) :
        Scalar.total (items.map fun i => (finite (p i) - finite a) * (finite (q i) - finite b)) =
          finite (items.map fun i => (p i - a) * (q i - b)).sum := by
      simp only [sub_finite, mul_finite, total_finite_map]
    simp only [List.length_map, short, if_false, List.map_map, Function.comp_def, total_finite_map,
      ofNat_eq, div_finite _ count, sums, mul_finite]
    exact quotient_finite (comoment items f g) product

/-! ## Places -/

/-- The average rank of an item. -/
noncomputable def placeAmong (items : List ι) (f : ι → ℝ) (i : ι) : ℝ :=
  (rankAmong 0 (items.map fun j => finite (f j)) (finite (f i))).toReal

theorem placeAmong_eq (items : List ι) (f : ι → ℝ) (i : ι) :
    placeAmong items f i =
      doubledRank (items.map fun j => finite (f j)) (finite (f i)) / 2 := by
  rw [placeAmong, rankAmong_exact, toReal_finite]

theorem present_finite (items : List ι) (f : ι → ℝ) :
    ∀ v ∈ items.map fun i => finite (f i), Scalar.isNaN v = false :=
  List.forall_mem_map.mpr fun _ _ => rfl

theorem averageRanks_finite (items : List ι) (f : ι → ℝ) :
    averageRanks (items.map fun i => finite (f i)) =
      items.map fun i => finite (placeAmong items f i) := by
  rw [averageRanks_eq (present_finite items f), List.map_map]
  refine List.map_congr_left fun i _ => ?_
  rw [Function.comp_apply, placeAmong, rankAmong_exact, toReal_finite]

theorem placeAmong_congr (same : ∀ i ∈ items, f i = h i) {i : ι} (member : i ∈ items) :
    placeAmong items f i = placeAmong items h i := by
  have values : (items.map fun j => finite (f j)) = items.map fun j => finite (h j) :=
    List.map_congr_left fun j inside => by rw [same j inside]
  rw [placeAmong, placeAmong, values, same i member]

theorem placeAmong_increasing {stretch : ℝ → ℝ}
    (rises : StrictMonoOn stretch {v | ∃ i ∈ items, f i = v}) {i : ι} (member : i ∈ items) :
    placeAmong items (fun j => stretch (f j)) i = placeAmong items f i := by
  have increasing : Increasing (mapReal stretch) (items.map fun j => finite (f j)) := by
    refine increasing_mapReal (List.forall_mem_map.mpr fun _ _ => rfl) (rises.mono ?_)
    intro v inside
    obtain ⟨j, among, value⟩ := List.mem_map.mp inside
    exact ⟨j, among, Extended.finite.inj value⟩
  have kept := increasing.doubledRank_map (present_finite items f)
    (List.mem_map.mpr ⟨i, member, rfl⟩)
  rw [List.map_map] at kept
  rw [placeAmong_eq, placeAmong_eq]
  exact congrArg (fun n : ℕ => (n : ℝ) / 2) kept

theorem placeAmong_neg (items : List ι) (f : ι → ℝ) (i : ι) :
    placeAmong items (fun j => -f j) i = (items.length + 1) - placeAmong items f i := by
  have mirrored := doubledRank_mirror (f := fun v : Extended => -v) (v := finite (f i))
    (present_finite items f) rfl
    (List.forall_mem_map.mpr fun j _ => by simp) (List.forall_mem_map.mpr fun j _ => by simp)
  rw [List.map_map, List.length_map] at mirrored
  have places : ((doubledRank (items.map fun j => finite (-f j)) (finite (-f i)) : ℕ) : ℝ) +
      doubledRank (items.map fun j => finite (f j)) (finite (f i)) = 2 * (items.length + 1) := by
    exact_mod_cast mirrored
  rw [placeAmong_eq, placeAmong_eq]
  linarith

theorem constant_placeAmong_iff : Constant items (placeAmong items f) ↔ Constant items f := by
  constructor
  · rintro ⟨c, level⟩
    -- two items with different quantities have different places
    have apart {i j : ι} (first : i ∈ items) (second : j ∈ items) : ¬ f i < f j := by
      intro below
      have order := doubledRank_lt (v := finite (f j)) (present_finite items f)
        (List.mem_map.mpr ⟨i, first, rfl⟩) (by simpa using below)
      have places : placeAmong items f i < placeAmong items f j := by
        rw [placeAmong_eq, placeAmong_eq]
        gcongr
      rw [level i first, level j second] at places
      exact lt_irrefl c places
    cases items with
    | nil => exact ⟨0, fun i member => nomatch member⟩
    | cons first rest =>
      have head : first ∈ first :: rest := List.mem_cons_self
      exact ⟨f first, fun i member =>
        le_antisymm (not_lt.mp (apart head member)) (not_lt.mp (apart member head))⟩
  · rintro ⟨c, level⟩
    refine ⟨(rankAmong 0 (items.map fun j => finite (f j)) (finite c)).toReal, fun i member => ?_⟩
    rw [placeAmong, level i member]

/-! ## Scores -/

/-- What is correlated: the quantity itself, or its places. -/
noncomputable def scores (ranked : Bool) (items : List ι) (f : ι → ℝ) : ι → ℝ :=
  if ranked then placeAmong items f else f

theorem constant_scores_iff (ranked : Bool) :
    Constant items (scores ranked items f) ↔ Constant items f := by
  cases ranked with
  | true => exact constant_placeAmong_iff
  | false => exact Iff.rfl

theorem scores_congr (ranked : Bool) (same : ∀ i ∈ items, f i = h i) :
    ∀ i ∈ items, scores ranked items f i = scores ranked items h i := by
  cases ranked with
  | true => exact fun i member => placeAmong_congr same member
  | false => exact same

theorem exists_scores_neg (ranked : Bool) (items : List ι) (f : ι → ℝ) :
    ∃ c, scores ranked items (fun i => -f i) = fun i => c - scores ranked items f i := by
  cases ranked with
  | true => exact ⟨items.length + 1, funext (placeAmong_neg items f)⟩
  | false => exact ⟨0, funext fun i => (zero_sub (f i)).symm⟩

theorem correlate_finite (ranked : Bool) (items : List ι) (f g : ι → ℝ) :
    (if ranked then spearman (items.map fun i => finite (f i)) (items.map fun i => finite (g i))
      else pearson (items.map fun i => finite (f i)) (items.map fun i => finite (g i))) =
      (correlation items (scores ranked items f) (scores ranked items g)).map finite := by
  cases ranked with
  | true =>
    rw [if_pos rfl, spearman, averageRanks_finite, averageRanks_finite, pearson_finite]
    rfl
  | false => exact pearson_finite items f g

end Statistics

end FactorSearch
