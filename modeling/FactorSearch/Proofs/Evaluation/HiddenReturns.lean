import FactorSearch.Miner
import FactorSearch.Proofs.Double.Overflow

/-!
# Returns that a score hides

A backtest whose net returns are not all finite has no finite mean return, but its ratios are
finite: the deviation of such returns is missing, which the Sharpe ratio takes for no volatility,
and the cap on the Sortino ratio replaces a missing quotient.  So a factor that earned or lost an
infinite amount is scored, and the reason for numbers that are not finite is never given.
-/

set_option autoImplicit false

namespace FactorSearch

open Double

namespace Statistics

section Hidden

variable {sign : Float.Model.UnpackedFloat.Sign} {r : Float} (returns : List Float)

theorem mean_beyond (beyond : Beyond sign r) (member : r ∈ returns) :
    Beyond sign (mean returns) := by
  have some : returns.isEmpty = false := List.isEmpty_eq_false_iff_exists_mem.mpr ⟨r, member⟩
  rw [mean, some, if_neg Bool.false_ne_true]
  exact (beyond.total returns member).div (unsigned_ofNat _)

theorem mean_missing (missing : Missing r) (member : r ∈ returns) : Missing (mean returns) :=
  missing_of_beyond (mean_beyond returns (Or.inl missing) member)
    (mean_beyond returns (Or.inl missing) member)

/-- The distance of such a return from the mean is missing, and so is what is made of it. -/
theorem deviation_missing (beyond : Beyond sign r) (member : r ∈ returns) :
    Missing (deviation returns) := by
  have some : returns.isEmpty = false := List.isEmpty_eq_false_iff_exists_mem.mpr ⟨r, member⟩
  have distance : Missing (Scalar.square (r - mean returns)) :=
    (beyond.sub (mean_beyond returns beyond member)).square
  have summed : Missing (Scalar.total (returns.map fun v => Scalar.square (v - mean returns))) :=
    distance.total _ (List.mem_map.mpr ⟨r, member, rfl⟩)
  rw [deviation, some, if_neg Bool.false_ne_true]
  exact (summed.div_left _).sqrt

theorem sharpe_hidden (beyond : Beyond sign r) (member : r ∈ returns) : sharpe returns = 0 := by
  have flat := (deviation_missing returns beyond member).not_lt 0
  rw [sharpe, flat]
  rfl

theorem downside_beyond (lost : r.toModel.unpack = .infinity .negative) (member : r ∈ returns) :
    Beyond .positive (downside returns) := by
  have known : Scalar.isNaN r = false := by
    rw [isNaN_eq, lost]
    rfl
  have below : Scalar.lt 0 r = false := by
    rw [lt_eq, lost]
    rfl
  have zero : Scalar.isNaN (0 : Float) = false := rfl
  have loss : Scalar.min r 0 = r := by
    simp only [Scalar.min, known, zero, below, Bool.false_eq_true, if_false]
  have squared : Beyond .positive (Scalar.square (Scalar.min r 0)) := by
    rw [loss]
    exact Beyond.square (Or.inr lost)
  have summed : Beyond .positive
      (Scalar.total (returns.map fun r => Scalar.square (Scalar.min r 0))) :=
    squared.total _ (List.mem_map.mpr ⟨r, member, rfl⟩)
  exact (summed.div (unsigned_ofNat _)).sqrt

theorem kind_of_positive (x : Float) (positive : Scalar.lt 0 x = true) :
    x.toModel.unpack = .infinity .positive ∨ Unsigned x.toModel.unpack ∧
      Scalar.isFinite x = true := by
  have zero : (0 : Float).toModel.unpack = .zero .positive := rfl
  rw [lt_eq, zero] at positive
  rw [isFinite_eq]
  cases kind : x.toModel.unpack with
  | notANumber =>
    rw [kind] at positive
    contradiction
  | zero other =>
    rw [kind] at positive
    contradiction
  | infinity other =>
    rw [kind] at positive
    cases other with
    | negative => contradiction
    | positive => exact Or.inl rfl
  | finite other mantissa exponent large =>
    rw [kind] at positive
    cases other with
    | negative => contradiction
    | positive => exact Or.inr ⟨rfl, rfl⟩

theorem quotient_beyond (beyond : Beyond sign r) (member : r ∈ returns)
    (risky : Scalar.lt 0 (downside returns) = true) :
    Beyond .positive (mean returns / downside returns) := by
  have average := mean_beyond returns beyond member
  have unsigned : Unsigned (downside returns).toModel.unpack := by
    rcases kind_of_positive _ risky with infinite | ⟨unsigned, _⟩
    · rw [infinite]
      rfl
    · exact unsigned
  rcases beyond with missing | infinite
  · exact Or.inl ((mean_missing returns missing member).div_left _)
  · cases sign with
    | positive => exact average.div unsigned
    | negative =>
      rcases average with missing | lost
      · exact Or.inl (missing.div_left _)
      · -- an infinite loss is an infinite risk, and the two have no quotient
        have above := downside_beyond returns infinite member
        rcases kind_of_positive _ risky with large | ⟨_, finite⟩
        · refine Or.inl ?_
          rw [Missing, unpack_div, lost, large]
          rfl
        · rw [above.not_finite] at finite
          contradiction

theorem sortino_hidden (beyond : Beyond sign r) (member : r ∈ returns) :
    sortino returns = ratioCap ∨ sortino returns = 0 := by
  have some : returns.isEmpty = false := List.isEmpty_eq_false_iff_exists_mem.mpr ⟨r, member⟩
  rw [sortino, some, if_neg Bool.false_ne_true]
  dsimp only
  split
  · rename_i risky
    exact Or.inl (quotient_beyond returns beyond member risky).min_ten
  · split
    · exact Or.inl rfl
    · exact Or.inr rfl

end Hidden

end Statistics

namespace Scorer

variable {periods instruments : Nat}

/-- A usable factor is scored exactly when the primary metric is finite; no other metric counts. -/
theorem assessFactor_of_usable {α : Type} [Scalar α] (s : Scorer α periods instruments)
    (factor : Panel α periods instruments)
    (usable : Degeneracy.classify? s.reward.limits factor = none) :
    s.assessFactor factor =
      let metrics := (Backtest.run s.reward factor s.forward).metrics
      let value := metrics.primary s.reward.primaryMetric
      if Scalar.isFinite value then
        .scored metrics (Scalar.clamp (-1) Statistics.ratioCap value)
      else .degenerate .nonFinite s.reward.degenerateReward := by
  simp only [assessFactor, usable, Backtest.score?]
  split
  · rename_i reward found
    split at found
    · rename_i finite
      cases found
      rw [if_pos finite]
    · cases found
  · rename_i none
    split at none
    · cases none
    · rename_i infinite
      rw [if_neg infinite]

/-- A net return that is not finite is hidden by either ratio: the mean return is not finite, the
Sharpe ratio is zero and the Sortino ratio zero or its cap, and under either as the primary metric
every program with such a backtest is scored. -/
theorem hidden_return_scored (s : Scorer Float periods instruments) (program : Program)
    (factor : Panel Float periods instruments)
    (ran : StackMachine.run s.vocabulary s.features program = .ok factor)
    (usable : Degeneracy.classify? s.reward.limits factor = none)
    (hidden : ∃ r ∈ (Backtest.run s.reward factor s.forward).returns, Scalar.isFinite r = false)
    (ratio : s.reward.primaryMetric = .sortino ∨ s.reward.primaryMetric = .sharpe) :
    ∃ (metrics : Metrics Float) (reward : Float),
      metrics = (Backtest.run s.reward factor s.forward).metrics ∧
      s.assess program = .ok (.scored metrics reward) ∧
      (reward = 0 ∨ reward = Statistics.ratioCap) ∧
      Scalar.isFinite metrics.meanReturn = false ∧ metrics.sharpe = 0 ∧
      (metrics.sortino = 0 ∨ metrics.sortino = Statistics.ratioCap) := by
  obtain ⟨r, member, overflowed⟩ := hidden
  obtain ⟨sign, beyond⟩ := exists_beyond r overflowed
  have sharpe : (Backtest.run s.reward factor s.forward).metrics.sharpe = 0 :=
    Statistics.sharpe_hidden _ beyond member
  have sortino : (Backtest.run s.reward factor s.forward).metrics.sortino = Statistics.ratioCap ∨
      (Backtest.run s.reward factor s.forward).metrics.sortino = 0 :=
    Statistics.sortino_hidden _ beyond member
  have average : Scalar.isFinite (Backtest.run s.reward factor s.forward).metrics.meanReturn =
      false := (Statistics.mean_beyond _ beyond member).not_finite
  have zero : Scalar.isFinite (0 : Float) = true ∧
      Scalar.clamp (-1) Statistics.ratioCap (0 : Float) = 0 := ⟨rfl, rfl⟩
  have cap : Scalar.isFinite (Statistics.ratioCap : Float) = true ∧
      Scalar.clamp (-1) Statistics.ratioCap (Statistics.ratioCap : Float) =
        Statistics.ratioCap := ⟨rfl, rfl⟩
  have value : (Backtest.run s.reward factor s.forward).metrics.primary s.reward.primaryMetric =
      0 ∨ (Backtest.run s.reward factor s.forward).metrics.primary s.reward.primaryMetric =
        Statistics.ratioCap := by
    rcases ratio with primary | primary
    · rw [primary]
      exact sortino.symm
    · rw [primary]
      exact Or.inl sharpe
  have assessed : s.assess program = .ok (s.assessFactor factor) := by rw [assess, ran]
  rw [assessed, s.assessFactor_of_usable factor usable]
  rcases value with value | value
  · refine ⟨_, 0, rfl, ?_, Or.inl rfl, average, sharpe, sortino.symm⟩
    dsimp only
    rw [value, if_pos zero.1, zero.2]
  · refine ⟨_, Statistics.ratioCap, rfl, ?_, Or.inr rfl, average, sharpe, sortino.symm⟩
    dsimp only
    rw [value, if_pos cap.1, cap.2]

def lossFeatures : FeatureSet Float 1 2 :=
  let trend : Panel Float 1 2 := ⟨#v[#v[1, -1]]⟩
  ⟨[("RET", trend), ("TURNOVER", .fill 0), ("VOL", .fill 0), ("VOLUME_CHG", .fill 0)],
    some ⟨#v[#v[-1e308, 1e308]]⟩⟩

def lossScorer : Scorer Float 1 2 :=
  ⟨⟨false⟩, .defaults, lossFeatures, ⟨#v[#v[-1e308, 1e308]]⟩⟩

theorem loss_usable : Degeneracy.classify? lossScorer.reward.limits
    (⟨#v[#v[1, -1]]⟩ : Panel Float 1 2) = none := by
  rw [← Option.isNone_iff_eq_none]
  decide +kernel

theorem loss_scored :
    StackMachine.run lossScorer.vocabulary lossScorer.features [.ofNat 24] =
      .ok ⟨#v[#v[1, -1]]⟩ ∧
    Degeneracy.classify? lossScorer.reward.limits (⟨#v[#v[1, -1]]⟩ : Panel Float 1 2) = none ∧
    (∃ r ∈ (Backtest.run lossScorer.reward ⟨#v[#v[1, -1]]⟩ lossScorer.forward).returns,
      Scalar.isFinite r = false) ∧
    ∃ (metrics : Metrics Float) (reward : Float),
      metrics = (Backtest.run lossScorer.reward ⟨#v[#v[1, -1]]⟩ lossScorer.forward).metrics ∧
      lossScorer.assess [.ofNat 24] = .ok (.scored metrics reward) ∧
      (reward = 0 ∨ reward = Statistics.ratioCap) ∧
      Scalar.isFinite metrics.meanReturn = false ∧ metrics.sharpe = 0 ∧
      (metrics.sortino = 0 ∨ metrics.sortino = Statistics.ratioCap) := by
  have ran : StackMachine.run lossScorer.vocabulary lossScorer.features [.ofNat 24] =
      .ok ⟨#v[#v[1, -1]]⟩ := by rfl
  have hidden : ∃ r ∈ (Backtest.run lossScorer.reward ⟨#v[#v[1, -1]]⟩ lossScorer.forward).returns,
      Scalar.isFinite r = false := by decide +kernel
  exact ⟨ran, loss_usable, hidden,
    hidden_return_scored lossScorer [.ofNat 24] _ ran loss_usable hidden (Or.inl rfl)⟩

/-- With the default settings a program is scored although its one net return, its mean return and
its drawdown are not finite. -/
theorem infinite_loss_scored :
    ∃ miner : Miner Float 1 2, Miner.create .defaults lossFeatures = .ok miner ∧
      (∃ metrics reward, miner.scorer.assess [.ofNat 24] = .ok (.scored metrics reward) ∧
        Scalar.isFinite metrics.meanReturn = false ∧
        Scalar.isFinite metrics.maxDrawdown = false) ∧
      ∃ factor, StackMachine.run miner.vocabulary miner.features [.ofNat 24] = .ok factor ∧
        ∀ r ∈ (Backtest.run miner.settings.reward factor miner.scorer.forward).returns,
          Scalar.isFinite r = false := by
  let metrics := (Backtest.run lossScorer.reward ⟨#v[#v[1, -1]]⟩ lossScorer.forward).metrics
  have created : Miner.create .defaults lossFeatures = .ok ⟨.defaults, lossScorer⟩ := by rfl
  have finite : Scalar.isFinite metrics.sortino = true := by decide +kernel
  have scored : lossScorer.assess [.ofNat 24] =
      .ok (.scored metrics (Scalar.clamp (-1) Statistics.ratioCap metrics.sortino)) := by
    have assessed : lossScorer.assess [.ofNat 24] =
        .ok (lossScorer.assessFactor ⟨#v[#v[1, -1]]⟩) := by rfl
    rw [assessed, assessFactor_of_usable _ _ loss_usable]
    exact congrArg Except.ok (if_pos finite)
  have infinite : Scalar.isFinite metrics.meanReturn = false ∧
      Scalar.isFinite metrics.maxDrawdown = false := by decide +kernel
  have returns : ∀ r ∈ (Backtest.run lossScorer.reward ⟨#v[#v[1, -1]]⟩ lossScorer.forward).returns,
      Scalar.isFinite r = false := by decide +kernel
  exact ⟨_, created, ⟨metrics, _, scored, infinite⟩, _, rfl, returns⟩

end Scorer

end FactorSearch
