import FactorSearch.Panel
import FactorSearch.Statistics.Moments
import FactorSearch.Statistics.Rank

/-!
# Cross-sectional kernels

Functions of the finite cells of one period.  A cell that is not finite stays missing and does not
count.
-/

set_option autoImplicit false

namespace FactorSearch

namespace Kernel

variable {α : Type} [Scalar α] {periods instruments : Nat}

@[specialize] def finiteCells (row : List α) : List α := row.filter Scalar.isFinite

@[specialize] def spread : List α → List α → List α
  | [], _ => []
  | v :: row, values =>
    if Scalar.isFinite v then values.headD Scalar.nan :: spread row values.tail
    else Scalar.nan :: spread row values

@[specialize] def rankRow (row : List α) : List α :=
  let finite := finiteCells row
  let count : α := Scalar.ofNat finite.length
  spread row ((Statistics.averageRanks finite).map fun r => r / count)

/-- The distances of the finite cells of a row from their mean, in standard deviations; zero when
they do not differ. -/
@[specialize] def zScoreRow (row : List α) : List α :=
  let finite := finiteCells row
  let center := Statistics.mean finite
  let deviation := Statistics.deviation finite
  row.map fun v =>
    if Scalar.isFinite v then
      if Scalar.lt 0 deviation then (v - center) / deviation else 0
    else Scalar.nan

@[specialize] def rank (x : Panel α periods instruments) : Panel α periods instruments :=
  x.mapRows Scalar.nan rankRow

@[specialize] def zScore (x : Panel α periods instruments) : Panel α periods instruments :=
  x.mapRows Scalar.nan zScoreRow

end Kernel

end FactorSearch
