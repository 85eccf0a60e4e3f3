import FactorSearch.Statistics.Moments

/-!
# Risk of a series of returns

Ratios of reward to risk, the equity that returns compound to, and the largest loss from a peak.
-/

set_option autoImplicit false

namespace FactorSearch

namespace Statistics

variable {α : Type} [Scalar α]

/-- The bound on reported ratios, and the Sortino ratio of gains without any loss. -/
@[inline] def ratioCap : α := 10

@[specialize] def downside (returns : List α) : α :=
  Scalar.sqrt (Scalar.total (returns.map fun r => Scalar.square (Scalar.min r 0)) /
    Scalar.ofNat returns.length)

/-- Mean return over downside, at most `ratioCap`.  It is never below minus one, since the mean is
at least the mean of the losses and their root mean square bounds that. -/
@[specialize] def sortino (returns : List α) : α :=
  if returns.isEmpty then 0
  else
    let average := mean returns
    let risk := downside returns
    if Scalar.lt 0 risk then Scalar.min (average / risk) ratioCap
    else if Scalar.lt 0 average then ratioCap
    else 0

@[specialize] def sharpe (returns : List α) : α :=
  let volatility := deviation returns
  if Scalar.lt 0 volatility then Scalar.clamp (-ratioCap) ratioCap (mean returns / volatility)
  else 0

@[specialize] def compound (value : α) : List α → List α
  | [] => [value]
  | r :: rest => value :: compound (value * (1 + r)) rest

@[specialize] def equityCurve (returns : List α) : List α := compound 1 returns

/-- The peak and the largest relative loss so far, after one more value. -/
@[inline] def fallFromPeak (peak worst value : α) : α × α :=
  let peak := if Scalar.lt peak value then value else peak
  if Scalar.lt 0 peak then
    let loss := (peak - value) / peak
    (peak, if Scalar.lt worst loss then loss else worst)
  else (peak, worst)

@[specialize] def maxDrawdown (equity : List α) : α :=
  match equity with
  | [] => 0
  | first :: _ =>
    (equity.foldl (fun state value => fallFromPeak state.1 state.2 value) (first, 0)).2

end Statistics

end FactorSearch
