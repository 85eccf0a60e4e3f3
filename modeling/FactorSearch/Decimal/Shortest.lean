/-!
# Decimals of doubles

A finite double is a natural number times a power of two, so it can be compared with decimals
exactly.  `Decimal.shortest` is the decimal with the fewest digits that reads back as the double,
and the nearest to it among those; `Decimal.nearest` is the multiple of a power of ten nearest to
it, a tie going to the even multiple.
-/

set_option autoImplicit false

namespace FactorSearch

structure Decimal where
  digits : Nat
  exponent : Int
  deriving DecidableEq, Repr

namespace Decimal

/-- The magnitude of a finite double: `mantissa * 2 ^ exponent`. -/
structure Magnitude where
  mantissa : Nat
  exponent : Int
  deriving DecidableEq, Repr

def Magnitude.ofFloat (x : Float) : Magnitude :=
  let bits := x.toBits.toNat
  let biased : Nat := bits / Nat.pow 2 52 % Nat.pow 2 11
  let fraction : Nat := bits % Nat.pow 2 52
  if biased = 0 then ⟨fraction, -1074⟩ else ⟨Nat.pow 2 52 + fraction, (biased : Int) - 1075⟩

def powerRatio (base : Nat) (exponent : Int) : Nat × Nat :=
  if 0 ≤ exponent then (Nat.pow base exponent.toNat, 1)
  else (1, Nat.pow base (-exponent).toNat)

def Magnitude.ratio (m : Magnitude) : Nat × Nat :=
  let (up, down) := powerRatio 2 m.exponent
  (m.mantissa * up, down)

def compareScaled (a : Nat) (p : Int) (b : Nat) (q : Int) : Ordering :=
  let (tenUp, tenDown) := powerRatio 10 p
  let (twoUp, twoDown) := powerRatio 2 q
  compare (a * tenUp * twoDown) (b * twoUp * tenDown)

/-- Whether a decimal reads back as the double of positive magnitude `m`.  In units of a quarter
of the last place the double is `4 * mantissa`; the upper neighbour is four units away, the lower
one four, or two at a power of two.  Half-way points read back as the double with even mantissa. -/
def readsBack (m : Magnitude) (digits : Nat) (exponent : Int) : Bool :=
  let below := if m.mantissa = Nat.pow 2 52 ∧ -1074 < m.exponent then 1 else 2
  let lower := compareScaled digits exponent (4 * m.mantissa - below) (m.exponent - 2)
  let upper := compareScaled digits exponent (4 * m.mantissa + 2) (m.exponent - 2)
  let even := m.mantissa % 2 = 0
  (lower = .gt || (even && lower = .eq)) && (upper = .lt || (even && upper = .eq))

/-- The exponent of the leading decimal digit of `num / den`, both positive. -/
def leadingExponent (num den : Nat) : Int :=
  let guess := ((num.log2 : Int) - (den.log2 : Int)) * 1233 / 4096
  let reaches (e : Int) : Bool :=
    let (up, down) := powerRatio 10 e
    den * up ≤ num * down
  if reaches (guess + 2) then guess + 2
  else if reaches (guess + 1) then guess + 1
  else if reaches guess then guess
  else if reaches (guess - 1) then guess - 1
  else guess - 2

def stripZeros : Nat → Decimal → Decimal
  | 0, d => d
  | fuel + 1, d =>
    if d.digits ≠ 0 ∧ d.digits % 10 = 0 then stripZeros fuel ⟨d.digits / 10, d.exponent + 1⟩ else d

/-- The candidate for a grid of decimals: of the two grid points around the double one that reads
back as it, the nearer if both do, the even one on a tie. -/
def onGrid (m : Magnitude) (exponent : Int) : Option Decimal :=
  let (num, den) := m.ratio
  let (up, down) := powerRatio 10 exponent
  let scaled := num * down
  let unit := den * up
  let low := scaled / unit
  match readsBack m low exponent && low ≠ 0, readsBack m (low + 1) exponent with
  | false, false => none
  | true, false => some ⟨low, exponent⟩
  | false, true => some ⟨low + 1, exponent⟩
  | true, true =>
    match compare (2 * (scaled % unit)) unit with
    | .lt => some ⟨low, exponent⟩
    | .gt => some ⟨low + 1, exponent⟩
    | .eq => some (if low % 2 = 0 then ⟨low, exponent⟩ else ⟨low + 1, exponent⟩)

def roundQuotient (num den : Nat) : Nat :=
  let low := num / den
  match compare (2 * (num % den)) den with
  | .lt => low
  | .gt => low + 1
  | .eq => if low % 2 = 0 then low else low + 1

def Magnitude.rounded (m : Magnitude) (exponent : Int) : Decimal :=
  let (num, den) := m.ratio
  let (up, down) := powerRatio 10 exponent
  ⟨roundQuotient (num * down) (den * up), exponent⟩

/-- The candidate of the first grid that has one, from `places` digits on; rounding to the last
grid when none has. -/
def searchGrid (m : Magnitude) (lead : Int) : Nat → Nat → Decimal
  | 0, places => m.rounded (lead - places + 1)
  | fuel + 1, places =>
    match onGrid m (lead - places + 1) with
    | some d => d
    | none => searchGrid m lead fuel (places + 1)

/-- The shortest decimal that reads back as the magnitude of a finite double. -/
def shortest (x : Float) : Decimal :=
  let m := Magnitude.ofFloat x
  if m.mantissa = 0 then ⟨0, 0⟩
  else
    let (num, den) := m.ratio
    stripZeros 20 (searchGrid m (leadingExponent num den) 17 1)

def nearest (x : Float) (exponent : Int) : Decimal :=
  (Magnitude.ofFloat x).rounded exponent

/-- The exponent of the leading digit of a finite double; zero for zero. -/
def leading (x : Float) : Int :=
  let (num, den) := (Magnitude.ofFloat x).ratio
  if num = 0 then 0 else leadingExponent num den

end Decimal

end FactorSearch
