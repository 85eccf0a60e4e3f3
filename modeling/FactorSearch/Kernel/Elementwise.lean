import FactorSearch.Panel

/-!
# Elementwise kernels

Functions of the cells at one period and instrument.  Each of them is missing where an operand it
reads is missing.
-/

set_option autoImplicit false

namespace FactorSearch

namespace Kernel

variable {α : Type} [Scalar α] {periods instruments : Nat}

/-- Added to every divisor, so that a zero divisor does not give infinity. -/
@[inline] def divisorShift : α := 1e-6

@[specialize] def add (x y : Panel α periods instruments) : Panel α periods instruments :=
  x.map₂ (fun a b => a + b) y

@[specialize] def sub (x y : Panel α periods instruments) : Panel α periods instruments :=
  x.map₂ (fun a b => a - b) y

@[specialize] def mul (x y : Panel α periods instruments) : Panel α periods instruments :=
  x.map₂ (fun a b => a * b) y

@[specialize] def div (x y : Panel α periods instruments) : Panel α periods instruments :=
  x.map₂ (fun a b => a / (b + divisorShift)) y

@[specialize] def neg (x : Panel α periods instruments) : Panel α periods instruments :=
  x.map fun a => -a

@[specialize] def abs (x : Panel α periods instruments) : Panel α periods instruments :=
  x.map Scalar.abs

@[inline] def signOf (a : α) : α :=
  if Scalar.isNaN a then Scalar.nan
  else if Scalar.lt 0 a then 1
  else if Scalar.lt a 0 then -1
  else 0

@[specialize] def sign (x : Panel α periods instruments) : Panel α periods instruments :=
  x.map signOf

/-- The first branch where the condition is positive, else the second; missing where the
condition is. -/
@[inline] def choose (c a b : α) : α :=
  if Scalar.isNaN c then Scalar.nan else if Scalar.lt 0 c then a else b

@[specialize] def gate (c x y : Panel α periods instruments) : Panel α periods instruments :=
  c.map₃ choose x y

@[inline] def present (f : α → α → α) (a b : α) : α :=
  if Scalar.isNaN a || Scalar.isNaN b then Scalar.nan else f a b

@[specialize] def max (x y : Panel α periods instruments) : Panel α periods instruments :=
  x.map₂ (present Scalar.max) y

@[specialize] def min (x y : Panel α periods instruments) : Panel α periods instruments :=
  x.map₂ (present Scalar.min) y

end Kernel

end FactorSearch
