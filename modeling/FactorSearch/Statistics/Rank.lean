import FactorSearch.Scalar

/-!
# Average ranks

The rank of a value is its place, from one on, in the ascending order of its list; equal values
share the mean of their places.  `ascending` sorts by insertion from the right, so that values
that do not compare keep their order.
-/

set_option autoImplicit false

namespace FactorSearch

namespace Statistics

variable {α : Type} [Scalar α]

/-- A value with its index put into a list in descending order: before the first one from the
front that is not larger. -/
@[specialize] def insertDescending (entry : Nat × α) : List (Nat × α) → List (Nat × α)
  | [] => [entry]
  | head :: rest =>
    if Scalar.lt entry.2 head.2 then head :: insertDescending entry rest
    else entry :: head :: rest

@[specialize] def ascending (entries : List (Nat × α)) : List (Nat × α) :=
  (entries.foldl (fun sorted entry => insertDescending entry sorted) []).reverse

/-- The ranks shared along an ascending list whose first entry has place `place + 1`: entries
equal to the first one form a group. -/
@[specialize] def shareRanks (place : Nat) : List (Nat × α) → List (Nat × α)
  | [] => []
  | head :: rest =>
    let ties := rest.takeWhile fun entry => Scalar.same entry.2 head.2
    let last := place + 1 + ties.length
    let shared : α := Scalar.ofNat (place + 1 + last) / 2
    (head :: ties).map (fun entry => (entry.1, shared)) ++
      shareRanks last (rest.dropWhile fun entry => Scalar.same entry.2 head.2)
  termination_by entries => entries.length
  decreasing_by
    have := (List.dropWhile_suffix (l := rest)
      (fun entry => Scalar.same entry.2 head.2)).length_le
    simp only [List.length_cons]
    omega

@[specialize] def averageRanks (values : List α) : List α :=
  let shared := shareRanks 0 (ascending ((List.range values.length).zip values))
  (List.range values.length).map fun i => (shared.lookup i).getD 0

end Statistics

end FactorSearch
