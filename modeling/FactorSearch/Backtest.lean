import FactorSearch.Settings.Basic
import FactorSearch.Statistics.Correlation
import FactorSearch.Statistics.Risk

/-!
# Backtest

A factor is traded long and short: the position in an instrument is the sign of its z-score in the
period once that clears the signal threshold.  Periods without any finite forward return are
skipped; every other one earns the mean of its positions' returns, less the cost of the turnover
from the positions before.
-/

set_option autoImplicit false

namespace FactorSearch

structure Metrics (α : Type) where
  sortino : α
  sharpe : α
  ic : α
  rankIc : α
  maxDrawdown : α
  turnover : α
  meanReturn : α
  deriving Repr

namespace Metrics

variable {α : Type}

def primary (m : Metrics α) : PrimaryMetric → α
  | .sortino => m.sortino
  | .sharpe => m.sharpe
  | .ic => m.ic
  | .rankIc => m.rankIc

def named (m : Metrics α) : List (String × α) :=
  [("sortino_ratio", m.sortino), ("sharpe_ratio", m.sharpe), ("ic", m.ic), ("rank_ic", m.rankIc),
    ("max_drawdown", m.maxDrawdown), ("turnover", m.turnover), ("mean_return", m.meanReturn)]

end Metrics

structure Backtest (α : Type) where
  metrics : Metrics α
  returns : List α
  equity : List α

namespace Backtest

variable {α : Type} [Scalar α] {periods instruments : Nat}

@[inline] def positionOf (threshold z : α) : α :=
  if Scalar.isFinite z && Scalar.lt threshold (Scalar.abs z) then
    if Scalar.isNegative z then -1 else 1
  else 0

@[specialize] def positions (settings : RewardSettings α) (factor : Panel α periods instruments) :
    Panel α periods instruments :=
  (Kernel.zScore factor).map (positionOf settings.signalThreshold)

@[specialize] def turnover (previous current : List α) : α :=
  Scalar.total (current.zipWith (fun p q => Scalar.abs (p - q)) previous) /
    Scalar.ofNat (Nat.max current.length 1)

@[specialize] def tradable (current forward : List α) : List (α × α) :=
  (current.zip forward).filter fun p => Scalar.isFinite p.2

structure Period (α : Type) where
  net : α
  turnover : α

/-- The evaluated periods of rows of positions and forward returns, from the positions before. -/
@[specialize] def evaluate (costRate : α) (previous : List α) :
    List (List α × List α) → List (Period α)
  | [] => []
  | (current, forward) :: rest =>
    let change := turnover previous current
    let trades := tradable current forward
    if trades.isEmpty then evaluate costRate current rest
    else
      let gross := Scalar.total (trades.map fun p => p.1 * p.2)
      ⟨gross / Scalar.ofNat trades.length - costRate * change, change⟩ ::
        evaluate costRate current rest

@[specialize] def evaluatedPeriods (settings : RewardSettings α)
    (factor forward : Panel α periods instruments) : List (Period α) :=
  evaluate settings.costRate (List.replicate instruments 0)
    ((positions settings factor).toRows.zip forward.toRows)

@[specialize] def run (settings : RewardSettings α) (factor forward : Panel α periods instruments) :
    Backtest α :=
  let evaluated := evaluatedPeriods settings factor forward
  let returns := evaluated.map Period.net
  let equity := Statistics.equityCurve returns
  { metrics :=
      { sortino := Statistics.sortino returns
        sharpe := Statistics.sharpe returns
        ic := Statistics.informationCoefficient false factor.toRows forward.toRows
        rankIc := Statistics.informationCoefficient true factor.toRows forward.toRows
        maxDrawdown := Statistics.maxDrawdown equity
        turnover := Statistics.mean (evaluated.map Period.turnover)
        meanReturn := Statistics.mean returns }
    returns := returns
    equity := equity }

/-- The backtest of a factor that may be of another grid than the forward returns. -/
@[specialize] def runGrids (settings : RewardSettings α) (factor forward : Grid α) :
    Result (Backtest α) :=
  match factor.fit? forward.periods forward.instruments with
  | some panel => .ok (run settings panel forward.panel)
  | none => .error (.shapeMismatch "factor" forward.shape factor.shape)

/-- The reward of metrics: the primary one, moved into the range from minus one to the cap; none
when it is not finite. -/
@[specialize] def score? (settings : RewardSettings α) (metrics : Metrics α) : Option α :=
  let value := metrics.primary settings.primaryMetric
  if Scalar.isFinite value then some (Scalar.clamp (-1) Statistics.ratioCap value) else none

end Backtest

end FactorSearch
