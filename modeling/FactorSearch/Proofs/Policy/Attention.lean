import Mathlib
import FactorSearch.Proofs.Exact.Softmax
import FactorSearch.Proofs.Exact.Tangent
import FactorSearch.Proofs.Policy.Stages

/-!
# Tangents of attention

The scores of every head, their weights, and the mean of the values under the weights.  A sum over
columns is one over heads and their entries, so the weights that a head's entries receive come
together at its scores.
-/

set_option autoImplicit false

namespace FactorSearch

namespace Policy

variable {s : Shape} {n : Nat} {x₀ : ℝ}

/-! ## Columns by heads -/

namespace Shape

theorem column_eq (head : Fin s.heads) (entry : Fin s.headWidth) :
    s.column head entry = finProdFinEquiv (head, entry) := by
  apply Fin.ext
  simp only [column, finProdFinEquiv_apply_val]
  ring

theorem headOf_column (head : Fin s.heads) (entry : Fin s.headWidth) :
    s.headOf (s.column head entry) = head := by
  have positive : 0 < s.headWidth := Nat.lt_of_le_of_lt (Nat.zero_le _) entry.isLt
  apply Fin.ext
  simp only [headOf, column]
  rw [Nat.mul_comm, Nat.mul_add_div positive, Nat.div_eq_of_lt entry.isLt, Nat.add_zero]

theorem sum_columns (f : Fin s.width → ℝ) : ∑ c, f c = ∑ h, ∑ k, f (s.column h k) := by
  simp only [column_eq]
  rw [← Fintype.sum_prod_type', Equiv.sum_comp finProdFinEquiv f]

end Shape

/-! ## Scores -/

theorem get_attentionScores (query : Vec ℝ s.width) (keys : Mat ℝ n s.width) (h : Fin s.heads)
    (t : Fin n) :
    ((attentionScores query keys).get h).get t =
      (∑ k, (keys.get t).get (s.column h k) * query.get (s.column h k)) * attentionScale s := by
  rw [attentionScores, Tensor.tabulate_apply, Tensor.sum_real]

theorem attentionScores_hasTangent {query : ℝ → Vec ℝ s.width} {query' : Fin s.width → ℝ}
    {keys : ℝ → Mat ℝ n s.width} {keys' : Fin n → Fin s.width → ℝ}
    (asks : Vec.HasTangent query query' x₀) (offers : Mat.HasTangent keys keys' x₀) :
    ∃ scores', Mat.HasTangent (fun x => attentionScores (query x) (keys x)) scores' x₀ ∧
      ∀ g : Fin s.heads → Fin n → ℝ, ∑ h, ∑ t, scores' h t * g h t =
        ∑ t, ∑ c, keys' t c * (g (s.headOf c) t * attentionScale s * (query x₀).get c) +
          ∑ c, query' c *
            ∑ t, ((keys x₀).get t).get c * (g (s.headOf c) t * attentionScale s) := by
  refine ⟨fun h t => (∑ k, (keys' t (s.column h k) * (query x₀).get (s.column h k) +
    ((keys x₀).get t).get (s.column h k) * query' (s.column h k))) * attentionScale s, ?_, ?_⟩
  · intro h t
    simp only [get_attentionScores]
    exact (HasDerivAt.fun_sum fun k _ => (offers t _).mul (asks _)).mul_const _
  · intro g
    have throughKeys : ∑ t, ∑ c, keys' t c *
        (g (s.headOf c) t * attentionScale s * (query x₀).get c) =
          ∑ h, ∑ t, ∑ k, keys' t (s.column h k) *
            (g h t * attentionScale s * (query x₀).get (s.column h k)) := by
      simp only [Shape.sum_columns, Shape.headOf_column]
      exact Finset.sum_comm
    have throughQuery : ∑ c, query' c *
        ∑ t, ((keys x₀).get t).get c * (g (s.headOf c) t * attentionScale s) =
          ∑ h, ∑ t, ∑ k, query' (s.column h k) *
            (((keys x₀).get t).get (s.column h k) * (g h t * attentionScale s)) := by
      simp only [Shape.sum_columns, Shape.headOf_column, Finset.mul_sum]
      exact Finset.sum_congr rfl fun h _ => Finset.sum_comm
    rw [throughKeys, throughQuery]
    simp only [Finset.sum_mul, ← Finset.sum_add_distrib]
    exact Finset.sum_congr rfl fun h _ => Finset.sum_congr rfl fun t _ =>
      Finset.sum_congr rfl fun k _ => by ring

/-! ## Weights -/

theorem weights_hasTangent {scores : ℝ → Vec ℝ n} {scores' : Fin n → ℝ} (some : 0 < n)
    (moves : Vec.HasTangent scores scores' x₀) :
    ∃ weights', Vec.HasTangent (fun x => Softmax.weights (scores x)) weights' x₀ ∧
      ∀ g : Vec ℝ n, ∑ t, weights' t * g.get t = ∑ t, scores' t *
        ((g.get t - Tensor.dot (Softmax.weights (scores x₀)) g) *
          (Softmax.weights (scores x₀)).get t) := by
  have tangent := Softmax.hasDerivAt_share (fun _ => true) (⟨0, some⟩ : Fin n) rfl
    (hasDerivAt_pi.mpr moves)
  refine ⟨fun t => Softmax.share (fun _ => true) (scores x₀).get t *
    (scores' t - Softmax.drift (fun _ => true) (scores x₀).get scores'), ?_, ?_⟩
  · intro t
    simp only [Softmax.get_weights]
    exact hasDerivAt_pi.mp tangent t
  · intro g
    simp only [Softmax.get_weights, Tensor.dot_real, Softmax.drift]
    set p := Softmax.share (fun _ => true) (scores x₀).get
    calc ∑ t, p t * (scores' t - ∑ i, p i * scores' i) * g.get t
        = ∑ t, p t * scores' t * g.get t - (∑ i, p i * scores' i) * ∑ t, p t * g.get t := by
          rw [Finset.mul_sum, ← Finset.sum_sub_distrib]
          exact Finset.sum_congr rfl fun t _ => by ring
      _ = ∑ t, scores' t * ((g.get t - ∑ i, p i * g.get i) * p t) := by
          rw [Finset.sum_mul, ← Finset.sum_sub_distrib]
          exact Finset.sum_congr rfl fun t _ => by ring

/-- Going through the weights of every head, weights on the attention become weights on the keys
and on the query. -/
theorem attention_hasTangent (some : 0 < n) {query : ℝ → Vec ℝ s.width}
    {query' : Fin s.width → ℝ} {keys : ℝ → Mat ℝ n s.width} {keys' : Fin n → Fin s.width → ℝ}
    {attention : ℝ → Mat ℝ s.heads n}
    (weighed : ∀ x h,
      (attention x).get h = Softmax.weights ((attentionScores (query x) (keys x)).get h))
    (asks : Vec.HasTangent query query' x₀) (offers : Mat.HasTangent keys keys' x₀) :
    ∃ attention', Mat.HasTangent attention attention' x₀ ∧
      ∀ g : Mat ℝ s.heads n, ∑ h, ∑ t, attention' h t * (g.get h).get t =
        ∑ t, ∑ c, keys' t c *
            ((keyGradient (query x₀) (scoreGradient (attention x₀) g)).get t).get c +
          ∑ c, query' c *
            (queryGradient (keys x₀) (scoreGradient (attention x₀) g)).get c := by
  obtain ⟨scores', scores, scoreAdjoint⟩ := attentionScores_hasTangent asks offers
  choose attention' weights adjoint using fun h => weights_hasTangent some (scores h)
  refine ⟨attention', ?_, ?_⟩
  · intro h
    simp only [weighed]
    exact weights h
  · intro g
    simp only [← weighed] at adjoint
    simp only [adjoint, scoreAdjoint fun h t => ((g.get h).get t -
      Tensor.dot ((attention x₀).get h) (g.get h)) * ((attention x₀).get h).get t, keyGradient,
      queryGradient, scoreGradient, meanGradient, Tensor.tabulate_apply, Vec.get_ofFn,
      Tensor.sum_real]

/-! ## Means of the values -/

theorem get_attend (attention : Mat ℝ s.heads n) (values : Mat ℝ n s.width) (c : Fin s.width) :
    (attend attention values).get c =
      ∑ t, (attention.get (s.headOf c)).get t * (values.get t).get c := by
  rw [attend, Vec.get_ofFn, Tensor.sum_real]

theorem attend_hasTangent {attention : ℝ → Mat ℝ s.heads n} {attention' : Fin s.heads → Fin n → ℝ}
    {values : ℝ → Mat ℝ n s.width} {values' : Fin n → Fin s.width → ℝ}
    (weighs : Mat.HasTangent attention attention' x₀) (offers : Mat.HasTangent values values' x₀) :
    ∃ context', Vec.HasTangent (fun x => attend (attention x) (values x)) context' x₀ ∧
      ∀ g : Vec ℝ s.width, ∑ c, context' c * g.get c =
        ∑ h, ∑ t, attention' h t * ((attentionGradient (values x₀) g).get h).get t +
          ∑ t, ∑ c, values' t c * ((valueGradient (attention x₀) g).get t).get c := by
  refine ⟨fun c => ∑ t, (attention' (s.headOf c) t * ((values x₀).get t).get c +
    ((attention x₀).get (s.headOf c)).get t * values' t c), ?_, ?_⟩
  · intro c
    simp only [get_attend]
    exact HasDerivAt.fun_sum fun t _ => (weighs _ t).mul (offers t c)
  · intro g
    have throughWeights : ∑ h, ∑ t, attention' h t *
        ((attentionGradient (values x₀) g).get h).get t =
          ∑ c, ∑ t, attention' (s.headOf c) t * (((values x₀).get t).get c * g.get c) := by
      simp only [Shape.sum_columns, Shape.headOf_column, attentionGradient, Tensor.tabulate_apply,
        Tensor.sum_real, Finset.mul_sum]
      exact Finset.sum_congr rfl fun h _ => Finset.sum_comm
    rw [throughWeights, Finset.sum_comm (f := fun t c => values' t c * _)]
    simp only [valueGradient, Tensor.tabulate_apply, Finset.sum_mul, ← Finset.sum_add_distrib]
    exact Finset.sum_congr rfl fun c _ => Finset.sum_congr rfl fun t _ => by ring

end Policy

end FactorSearch
