import FactorSearch.Scalar

/-!
# Documents

What settings need of the notation that they are kept in: a printer of sections, a reader that puts
the environment over a document, and readers of single values.
-/

set_option autoImplicit false

namespace FactorSearch

namespace Layers

inductive Format where
  | toml
  | json
  deriving DecidableEq, Repr

def Format.ofPath? (path : String) : Option Format :=
  if path.endsWith ".toml" then some .toml
  else if path.endsWith ".json" then some .json
  else none

end Layers

namespace Document

inductive Plain where
  | count (n : Nat)
  | real (x : Float)
  | flag (b : Bool)
  | name (s : String)

/-- Whether there is room for a value in a document, whose integers have sixty-four bits with sign.
-/
def Plain.fits : Plain → Bool
  | .count n => n < Nat.pow 2 63
  | _ => true

abbrev Sections := List (String × List (String × Plain))

/-- A notation for documents, which are read as values.  `gather` reads a document, if there is one,
and puts over it what variables of an environment set; their names start with a given word, and a
given separator stands between the parts.  `fields?` is given the names that are asked for, in their
order, and `variant?` those to choose from.  `numeral` and `number?` are the spelling of numbers. -/
structure Codec where
  Value : Type
  print : Sections → Option String
  gather : String → String → Option (Layers.Format × String) → List (String × String) →
    Option Value
  fields? : List String → Value → Option (String → Option Value)
  isNull : Value → Bool
  count? : Value → Option Nat
  real? : Value → Option Float
  flag? : Value → Option Bool
  variant? : List String → Value → Option String
  numeral : Float → String
  number? : String → Option Float

end Document

end FactorSearch
