import FactorSearch.Decimal.Shortest

/-!
# Written numbers

How a double is written: its shortest digits, placed by a `Notation` that says which numbers are
written positionally, whether a whole number keeps a point, and how the special values read.
`fixed` writes a number with a given count of decimal places instead.
-/

set_option autoImplicit false

namespace FactorSearch

/-- The decisions of one way of writing numbers.  With the point after digit `p` of the shortest
digits (`p` may lie outside them), a number is positional when `least < p ≤ greatest`. -/
structure Notation where
  least : Option Int
  greatest : Option Int
  wholeSuffix : String
  nan : String
  infinity : String

namespace Notation

/-- Numbers in messages are positional and a whole number has no point. -/
def message : Notation := ⟨none, none, "", "NaN", "inf"⟩

/-- Numbers in a configuration file are positional and a whole number ends in `.0`. -/
def setting : Notation := ⟨none, none, ".0", "nan", "inf"⟩

/-- Numbers in reports and in table cells: an exponent below `1e-5` and from `1e16` on. -/
def report : Notation := ⟨some (-5), some 16, ".0", "NaN", "inf"⟩

def zeros (count : Nat) : String := "".pushn '0' count

def positional (wholeSuffix digits : String) (point : Int) : String :=
  if point ≤ 0 then "0." ++ zeros (-point).toNat ++ digits
  else if (digits.length : Int) ≤ point then
    digits ++ zeros (point - digits.length).toNat ++ wholeSuffix
  else String.ofList (digits.toList.take point.toNat) ++ "." ++
    String.ofList (digits.toList.drop point.toNat)

def scientific (digits : String) (point : Int) : String :=
  let mantissa := match digits.toList with
    | [] => "0"
    | [d] => String.ofList [d]
    | d :: rest => String.ofList (d :: '.' :: rest)
  mantissa ++ "e" ++ toString (point - 1)

def writeDecimal (style : Notation) (d : Decimal) : String :=
  if d.digits = 0 then "0" ++ style.wholeSuffix
  else
    let digits := toString d.digits
    let point := (digits.length : Int) + d.exponent
    let above := match style.least with | none => true | some p => p < point
    let below := match style.greatest with | none => true | some p => point ≤ p
    if above && below then positional style.wholeSuffix digits point
    else scientific digits point

def negative (x : Float) : Bool := x.toBits.toNat / Nat.pow 2 63 = 1

def write (style : Notation) (x : Float) : String :=
  if x.isNaN then style.nan
  else
    (if negative x then "-" else "") ++
      (if x.isFinite then style.writeDecimal (Decimal.shortest x) else style.infinity)

/-- A finite double with `places` digits after the point, rounded from its exact value. -/
def fixed (places : Nat) (x : Float) : String :=
  if !x.isFinite then message.write x
  else
    let digits := toString (Decimal.nearest x (-places)).digits
    let padded := zeros (places + 1 - digits.length) ++ digits
    let whole := padded.length - places
    (if negative x then "-" else "") ++ String.ofList (padded.toList.take whole) ++
      (if places = 0 then "" else "." ++ String.ofList (padded.toList.drop whole))

end Notation

end FactorSearch
