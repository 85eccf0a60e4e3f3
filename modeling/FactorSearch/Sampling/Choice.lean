import FactorSearch.Failure
import FactorSearch.Sampling.WordStream

/-!
# Weighted choice

An index drawn in proportion to weights.  The weights are laid end to end; the word picks a point
of the whole length, and the index is that of the weight which covers the point.
-/

set_option autoImplicit false

namespace FactorSearch

namespace Choice

variable {α : Type} [Scalar α]

/-- How many weights end at or before a target, when the first starts at `start`; the last one is
not asked. -/
@[specialize] def countPassed (target start : α) : List α → Nat
  | [] => 0
  | [_] => 0
  | weight :: rest =>
    let finish := start + weight
    (if Scalar.le finish target then 1 else 0) + countPassed target finish rest

/-- The index that a word draws among weights, which have to be at least zero and not all zero. -/
@[specialize] def draw (weights : List α) (word : UInt64) : Result Nat :=
  if weights.isEmpty then .error (.internal .noWeights)
  else if weights.any fun w => !Scalar.le 0 w then .error (.internal .invalidWeight)
  else
    let total := Scalar.total weights
    if Scalar.same total 0 then .error (.internal .zeroWeights)
    else .ok (countPassed (WordStream.unit word * total) 0 weights)

end Choice

end FactorSearch
