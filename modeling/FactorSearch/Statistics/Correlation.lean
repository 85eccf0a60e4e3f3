import FactorSearch.Statistics.Moments
import FactorSearch.Statistics.Rank

/-!
# Correlation

Pearson and Spearman correlation, and the information coefficient of a factor: the mean over
periods of the correlation of its row with the row of forward returns.
-/

set_option autoImplicit false

namespace FactorSearch

namespace Statistics

variable {α : Type} [Scalar α]

/-- Pearson correlation over the common length; none without two values or without dispersion on
either side. -/
@[specialize] def pearson (x y : List α) : Option α :=
  let pairs := x.zip y
  if pairs.length < 2 then none
  else
    let n : α := Scalar.ofNat pairs.length
    let meanX := Scalar.total (pairs.map Prod.fst) / n
    let meanY := Scalar.total (pairs.map Prod.snd) / n
    let covariance := Scalar.total (pairs.map fun p => (p.1 - meanX) * (p.2 - meanY))
    let varianceX := Scalar.total (pairs.map fun p => (p.1 - meanX) * (p.1 - meanX))
    let varianceY := Scalar.total (pairs.map fun p => (p.2 - meanY) * (p.2 - meanY))
    let scale := Scalar.sqrt (varianceX * varianceY)
    if Scalar.lt 0 scale && Scalar.isFinite scale then some (covariance / scale) else none

@[specialize] def spearman (x y : List α) : Option α :=
  pearson (averageRanks x) (averageRanks y)

/-- The pairs of cells of two rows where both are finite. -/
@[specialize] def usablePairs (factor forward : List α) : List (α × α) :=
  (factor.zip forward).filter fun p => Scalar.isFinite p.1 && Scalar.isFinite p.2

@[specialize] def rowCorrelation (ranked : Bool) (factor forward : List α) : Option α :=
  let pairs := usablePairs factor forward
  if ranked then spearman (pairs.map Prod.fst) (pairs.map Prod.snd)
  else pearson (pairs.map Prod.fst) (pairs.map Prod.snd)

/-- The mean correlation over the periods that have one; zero when none has. -/
@[specialize] def informationCoefficient (ranked : Bool) (factor forward : List (List α)) : α :=
  mean ((factor.zip forward).filterMap fun rows => rowCorrelation ranked rows.1 rows.2)

end Statistics

end FactorSearch
