import FactorSearch.Decimal.Notation

/-!
# Scalars

Every computation of the library is written once, over a type of scalars that carries the
operations it needs.  Doubles run it.  A scalar may be missing (`nan`) or infinite; the order
relations are Boolean tests that a missing value always fails.
-/

set_option autoImplicit false

namespace FactorSearch

/-- The operations on numbers that the library uses.  `isNegative` tells whether a number carries
a minus sign, `same` is numeric equality, and `text` is the spelling in messages. -/
class Scalar (α : Type) extends Add α, Sub α, Mul α, Div α, Neg α where
  ofNat : Nat → α
  ofScientific : Nat → Bool → Nat → α
  nan : α
  infinity : α
  isNaN : α → Bool
  isFinite : α → Bool
  isNegative : α → Bool
  lt : α → α → Bool
  le : α → α → Bool
  same : α → α → Bool
  abs : α → α
  sqrt : α → α
  exp : α → α
  log : α → α
  tanh : α → α
  text : α → String

namespace Scalar

variable {α : Type} [Scalar α]

instance (priority := low) instOfNat (n : Nat) : OfNat α n := ⟨Scalar.ofNat n⟩

instance (priority := low) instOfScientific : OfScientific α := ⟨Scalar.ofScientific⟩

/-- The larger operand; a missing operand gives way to the other one. -/
@[inline] def max (x y : α) : α :=
  if isNaN x then y else if isNaN y then x else if lt x y then y else x

@[inline] def min (x y : α) : α :=
  if isNaN x then y else if isNaN y then x else if lt y x then y else x

/-- `x` moved into the interval from `low` to `high`; a missing value stays missing. -/
@[inline] def clamp (low high x : α) : α :=
  if lt x low then low else if lt high x then high else x

@[inline] def square (x : α) : α := x * x

@[specialize] def power (x : α) : Nat → α
  | 0 => 1
  | n + 1 => power x n * x

@[specialize] def zpower (x : α) : Int → α
  | .ofNat n => power x n
  | .negSucc n => 1 / power x (n + 1)

/-- The sum of a list, added from the left. -/
@[specialize] def total (values : List α) : α :=
  values.foldl (fun sum value => sum + value) 0

/-- The largest value of a list, missing values apart; minus infinity when there is none. -/
@[specialize] def maximum (values : List α) : α :=
  values.foldl max (-infinity)

end Scalar

instance : Scalar Float where
  ofNat := Float.ofNat
  ofScientific := Float.ofScientific
  nan := 0.0 / 0.0
  infinity := 1.0 / 0.0
  isNaN := Float.isNaN
  isFinite := Float.isFinite
  isNegative := Notation.negative
  lt x y := x < y
  le x y := x ≤ y
  same x y := x == y
  abs := Float.abs
  sqrt := Float.sqrt
  exp := Float.exp
  log := Float.log
  tanh := Float.tanh
  text := Notation.message.write

end FactorSearch
