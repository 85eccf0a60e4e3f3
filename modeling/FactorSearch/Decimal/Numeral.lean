/-!
# Numerals

Reading numbers from text.  A whole numeral is an optional sign and digits; a real numeral is an
optional sign and either digits with at most one point and an optional exponent, or one of the
words for infinity and for a missing value in any letter case.
-/

set_option autoImplicit false

namespace FactorSearch

namespace Numeral

def ofDigits (value : Nat) (digits : List Char) : Nat :=
  digits.foldl (fun v c => v * 10 + (c.toNat - '0'.toNat)) value

def splitSign : List Char → Bool × List Char
  | '-' :: rest => (true, rest)
  | '+' :: rest => (false, rest)
  | text => (false, text)

def int? (text : List Char) : Option Int :=
  let (minus, digits) := splitSign text
  if digits.isEmpty || !digits.all Char.isDigit then none
  else
    let value : Int := ofDigits 0 digits
    some (if minus then -value else value)

/-- `digits * 10 ^ exponent` as a double; exponents beyond every double give zero or infinity. -/
def scale (digits : Nat) (exponent : Int) : Float :=
  let point : Int := (toString digits).length + exponent
  if digits = 0 then 0.0
  else if 400 < point then 1.0 / 0.0
  else if point < -400 then 0.0
  else if 0 ≤ exponent then Float.ofScientific digits false exponent.toNat
  else Float.ofScientific digits true (-exponent).toNat

def magnitude? (text : List Char) : Option Float :=
  let whole := text.takeWhile Char.isDigit
  let rest := text.dropWhile Char.isDigit
  let (fraction, rest) := match rest with
    | '.' :: rest => (rest.takeWhile Char.isDigit, rest.dropWhile Char.isDigit)
    | _ => ([], rest)
  if whole.isEmpty && fraction.isEmpty then none
  else
    let digits := ofDigits (ofDigits 0 whole) fraction
    let exponent : Option Int := match rest with
      | [] => some 0
      | c :: power => if c = 'e' || c = 'E' then int? power else none
    exponent.map fun e => scale digits (e - fraction.length)

def float? (text : List Char) : Option Float :=
  let (minus, body) := splitSign text
  let word := body.map Char.toLower
  let value :=
    if word = "inf".toList || word = "infinity".toList then some (1.0 / 0.0)
    else if word = "nan".toList then some (0.0 / 0.0)
    else magnitude? body
  value.map fun v => if minus then -v else v

end Numeral

end FactorSearch
