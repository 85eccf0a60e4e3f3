import FactorSearch.Panel
import FactorSearch.Statistics.Moments

/-!
# Degenerate factors

A factor cannot be traded on when it has no cells, when too many of them are missing, or when its
cells do not differ in too many periods.  With one instrument the cells are compared over time
instead.
-/

set_option autoImplicit false

namespace FactorSearch

structure DegeneracyLimits (α : Type) where
  maxMissing : α
  maxFlat : α
  flatDeviation : α

inductive Degeneracy (α : Type) where
  | empty
  | tooManyMissing (ratio : α)
  | constant (ratio : α)
  | nonFinite

namespace Degeneracy

/-- The reason in words; ratios are shown as percentages with one decimal place. -/
def text : Degeneracy Float → String
  | empty => "factor has no cells"
  | tooManyMissing ratio => s!"{Notation.fixed 1 (ratio * 100)}% of cells are missing"
  | constant ratio => s!"{Notation.fixed 1 (ratio * 100)}% of periods have no dispersion"
  | nonFinite => "backtest metrics are not finite"

variable {α : Type} [Scalar α] {periods instruments : Nat}

/-- Whether values are fewer than two or do not differ by more than the limit. -/
@[specialize] def isFlat (limit : α) (values : List α) : Bool :=
  values.length < 2 || Scalar.le (Statistics.deviation values) limit

/-- The first reason why a factor cannot be used. -/
@[specialize] def classify? (limits : DegeneracyLimits α) (factor : Panel α periods instruments) :
    Option (Degeneracy α) :=
  let cells := factor.cells
  if cells.isEmpty then some .empty
  else
    let missing := cells.countP fun v => !Scalar.isFinite v
    let missingRatio : α := Scalar.ofNat missing / Scalar.ofNat cells.length
    if Scalar.lt limits.maxMissing missingRatio then some (.tooManyMissing missingRatio)
    else if instruments = 1 then
      if isFlat limits.flatDeviation (cells.filter Scalar.isFinite) then some (.constant 1)
      else none
    else
      let flat := factor.toRows.countP fun row =>
        isFlat limits.flatDeviation (row.filter Scalar.isFinite)
      let flatRatio : α := Scalar.ofNat flat / Scalar.ofNat periods
      if Scalar.le limits.maxFlat flatRatio then some (.constant flatRatio) else none

end Degeneracy

end FactorSearch
