import FactorSearch.Backtest

/-!
# The hall of fame

The best factors found so far: at most a given number, one for each formula, by descending reward
and among equal rewards by ascending step.  A formula that is pushed out may come back.
-/

set_option autoImplicit false

namespace FactorSearch

structure Factor (α : Type) where
  formula : String
  reward : α
  metrics : Metrics α
  step : Nat

/-- The factors held, and the formulas that count as duplicates. -/
structure HallOfFame (α : Type) where
  capacity : Nat
  factors : List (Factor α)
  seen : List String

namespace HallOfFame

variable {α : Type} [Scalar α]

def empty (capacity : Nat) : HallOfFame α := ⟨capacity, [], []⟩

@[specialize] def ranksBefore (a b : Factor α) : Bool :=
  Scalar.lt b.reward a.reward || (!Scalar.lt a.reward b.reward && a.step < b.step)

/-- A factor put into a ranked list, after those that it does not rank before. -/
@[specialize] def insertRanked (factor : Factor α) : List (Factor α) → List (Factor α)
  | [] => [factor]
  | head :: rest =>
    if ranksBefore factor head then factor :: head :: rest
    else head :: insertRanked factor rest

@[specialize] def excludes (hall : HallOfFame α) (reward : α) : Bool :=
  hall.capacity ≤ hall.factors.length &&
    match hall.factors.getLast? with
    | some worst => Scalar.le reward worst.reward
    | none => false

@[specialize] def admits (hall : HallOfFame α) (factor : Factor α) : Bool :=
  Scalar.isFinite factor.reward && hall.capacity ≠ 0 && !hall.seen.contains factor.formula &&
    !hall.excludes factor.reward

/-- The hall with a factor taken in; what no longer fits is dropped and its formula forgotten. -/
@[specialize] def insert (hall : HallOfFame α) (factor : Factor α) : HallOfFame α :=
  let ranked := insertRanked factor hall.factors
  let dropped := (ranked.drop hall.capacity).map Factor.formula
  { hall with
    factors := ranked.take hall.capacity
    seen := (factor.formula :: hall.seen).filter fun formula => !dropped.contains formula }

@[specialize] def offer (hall : HallOfFame α) (factor : Factor α) : Bool × HallOfFame α :=
  if hall.admits factor then (true, hall.insert factor) else (false, hall)

@[specialize] def offerAll (hall : HallOfFame α) (factors : List (Factor α)) : HallOfFame α :=
  factors.foldl (fun hall factor => (hall.offer factor).2) hall

def size (hall : HallOfFame α) : Nat := hall.factors.length

def best? (hall : HallOfFame α) : Option (Factor α) := hall.factors.head?

def top (hall : HallOfFame α) (count : Nat) : List (Factor α) := hall.factors.take count

@[specialize] def above (hall : HallOfFame α) (least : α) : List (Factor α) :=
  hall.factors.filter fun factor => Scalar.le least factor.reward

end HallOfFame

end FactorSearch
