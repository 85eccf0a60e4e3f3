import FactorSearch.Proofs.Exact.Scalar
import FactorSearch.Proofs.Statistics.Comoments
import FactorSearch.Statistics.Risk

/-!
# Bounds of the Sortino ratio

In exact arithmetic the mean return is at least the mean of the losses, and the downside is the root
of the mean square of the losses, so that their ratio is at least minus one.  It is minus one only
where the losses are level, which is a list of one negative return.
-/

set_option autoImplicit false

namespace FactorSearch

namespace Statistics

theorem mean_real (returns : List ℝ) : mean returns = average returns id := by
  rw [mean, average, List.map_id]
  cases returns with
  | nil => simp
  | cons first rest => rw [List.isEmpty_cons, if_neg Bool.false_ne_true, Scalar.total_real]; rfl

noncomputable def loss (r : ℝ) : ℝ := min r 0

theorem downside_real (returns : List ℝ) :
    downside returns = √(average returns fun r => loss r ^ 2) := by
  rw [downside, average, Scalar.total_real, Scalar.sqrt_real, Scalar.ofNat_real]
  simp only [Scalar.square, Scalar.min_real, Scalar.zero_real, ← pow_two]
  rfl

theorem ratioCap_pos : (0 : ℝ) < ratioCap := by
  have ten : (ratioCap : ℝ) = 10 := Nat.cast_ofNat
  rw [ten]
  norm_num

/-- No branch for the empty list is needed: its mean and its downside are zero. -/
theorem sortino_real (returns : List ℝ) :
    sortino returns =
      if 0 < downside returns then min (mean returns / downside returns) ratioCap
      else if 0 < mean returns then ratioCap
      else 0 := by
  rw [sortino]
  cases returns with
  | nil => simp [mean_real, downside_real, average]
  | cons first rest => simp

theorem neg_downside_le_losses (returns : List ℝ) :
    -downside returns ≤ average returns loss := by
  rw [downside_real]
  exact Real.neg_sqrt_le_of_sq_le (sq_average_le returns loss)

theorem losses_le_mean (returns : List ℝ) : average returns loss ≤ mean returns := by
  rw [mean_real]
  exact average_le fun r _ => min_le_left r 0

theorem downside_of_constant {returns : List ℝ} (some : returns ≠ []) {c : ℝ} (negative : c < 0)
    (level : ∀ r ∈ returns, r = c) : mean returns = c ∧ downside returns = -c := by
  have averaged (f : ℝ → ℝ) : average returns f = f c :=
    average_of_level some fun r member => by rw [level r member]
  refine ⟨by rw [mean_real, averaged, id], ?_⟩
  rw [downside_real, averaged, loss, min_eq_left negative.le, Real.sqrt_sq_eq_abs,
    abs_of_neg negative]

/-- The mean return is at least the mean loss, and that is within the downside of zero. -/
theorem neg_downside_le_mean (returns : List ℝ) : -downside returns ≤ mean returns :=
  (neg_downside_le_losses returns).trans (losses_le_mean returns)

theorem constant_of_mean_eq {returns : List ℝ} (positive : 0 < downside returns)
    (least : mean returns = -downside returns) :
    returns ≠ [] ∧ ∃ c < 0, ∀ r ∈ returns, r = c := by
  have some : returns ≠ [] := by
    rintro rfl
    simp [downside_real, average] at positive
  have squeezed : average returns loss = -downside returns :=
    le_antisymm (least ▸ losses_le_mean returns) (neg_downside_le_losses returns)
  have square : average returns loss ^ 2 = average returns fun r => loss r ^ 2 := by
    rw [squeezed, neg_sq, downside_real, Real.sq_sqrt]
    exact (sq_nonneg _).trans (sq_average_le returns loss)
  obtain ⟨c, level⟩ := constant_of_sq_average_eq square
  have negative : c < 0 := by
    rw [← average_of_level some level, squeezed]
    exact neg_neg_of_pos positive
  refine ⟨some, c, negative, fun r member => ?_⟩
  rcases min_choice r 0 with itself | zero
  · exact itself.symm.trans (level r member)
  · exact absurd (zero.symm.trans (level r member)) negative.ne'

theorem sortino_of_downside {returns : List ℝ} (positive : 0 < downside returns) :
    sortino returns = min (mean returns / downside returns) ratioCap := by
  rw [sortino_real, if_pos positive]

theorem sortino_of_no_downside {returns : List ℝ} (none : ¬ 0 < downside returns) :
    mean returns = 0 ∧ sortino returns = 0 ∨ 0 < mean returns ∧ sortino returns = ratioCap := by
  have nonneg : 0 ≤ mean returns := by
    linarith [neg_downside_le_mean returns]
  rw [sortino_real, if_neg none]
  rcases nonneg.eq_or_lt with zero | gain
  · exact .inl ⟨zero.symm, if_neg zero.not_lt⟩
  · exact .inr ⟨gain, if_pos gain⟩

theorem sortino_mem_Icc (returns : List ℝ) : sortino returns ∈ Set.Icc (-1) ratioCap := by
  have cap := ratioCap_pos
  by_cases positive : 0 < downside returns
  · rw [sortino_of_downside positive]
    refine ⟨le_min ?_ (by linarith), min_le_right _ _⟩
    rw [le_div_iff₀ positive, neg_one_mul]
    exact neg_downside_le_mean returns
  · obtain ⟨-, flat⟩ | ⟨-, capped⟩ := sortino_of_no_downside positive
    · rw [flat]
      exact ⟨by norm_num, cap.le⟩
    · rw [capped]
      exact ⟨by linarith, le_rfl⟩

theorem sign_sortino (returns : List ℝ) :
    SignType.sign (sortino returns) = SignType.sign (mean returns) := by
  have cap := ratioCap_pos
  by_cases positive : 0 < downside returns
  · rw [sortino_of_downside positive]
    rcases lt_trichotomy (mean returns) 0 with fell | flat | rose
    · have below := div_neg_of_neg_of_pos fell positive
      rw [sign_neg fell, sign_neg (min_lt_of_left_lt below)]
    · rw [flat, zero_div, min_eq_left cap.le]
    · have above := div_pos rose positive
      rw [sign_pos rose, sign_pos (lt_min above cap)]
  · obtain ⟨zero, flat⟩ | ⟨gain, capped⟩ := sortino_of_no_downside positive
    · rw [zero, flat]
    · rw [capped, sign_pos cap, sign_pos gain]

theorem sortino_eq_neg_one_iff (returns : List ℝ) :
    sortino returns = -1 ↔ returns ≠ [] ∧ ∃ c < 0, ∀ r ∈ returns, r = c := by
  have cap : (-1 : ℝ) < ratioCap := by
    linarith [ratioCap_pos]
  constructor
  · intro least
    by_cases positive : 0 < downside returns
    · rw [sortino_of_downside positive] at least
      rcases min_choice (mean returns / downside returns) ratioCap with ratio | capped
      · rw [ratio, div_eq_iff positive.ne', neg_one_mul] at least
        exact constant_of_mean_eq positive least
      · exact absurd (capped.symm.trans least) cap.ne'
    · obtain ⟨-, flat⟩ | ⟨-, capped⟩ := sortino_of_no_downside positive
      · norm_num [flat] at least
      · exact absurd (capped.symm.trans least) cap.ne'
  · rintro ⟨some, c, negative, level⟩
    obtain ⟨average, risk⟩ := downside_of_constant some negative level
    have positive : 0 < downside returns := risk ▸ neg_pos.mpr negative
    rw [sortino_of_downside positive, average, risk, div_neg, div_self negative.ne,
      min_eq_left cap.le]

/-- The Sortino ratio lies between minus one and the cap, and has the sign of the mean return.  It
is minus one just for returns that are all one loss; the ratio of no returns is zero. -/
theorem sortino_bounds (returns : List ℝ) :
    -1 ≤ sortino returns ∧ sortino returns ≤ ratioCap ∧
      SignType.sign (sortino returns) = SignType.sign (mean returns) ∧
      (sortino returns = -1 ↔ returns ≠ [] ∧ ∃ c < 0, ∀ r ∈ returns, r = c) := by
  obtain ⟨above, below⟩ := sortino_mem_Icc returns
  exact ⟨above, below, sign_sortino returns, sortino_eq_neg_one_iff returns⟩

end Statistics

end FactorSearch
