import FactorSearch.Scalar

/-!
# Moments

Mean and population standard deviation of a list of scalars, with sums taken from the left.
-/

set_option autoImplicit false

namespace FactorSearch

namespace Statistics

variable {α : Type} [Scalar α]

@[specialize] def mean (values : List α) : α :=
  if values.isEmpty then 0 else Scalar.total values / Scalar.ofNat values.length

@[specialize] def deviation (values : List α) : α :=
  if values.isEmpty then 0
  else
    let center := mean values
    Scalar.sqrt (Scalar.total (values.map fun v => Scalar.square (v - center)) /
      Scalar.ofNat values.length)

end Statistics

end FactorSearch
