import FactorSearch.Operator

/-!
# Vocabulary

The names of the formula language.  Every name has a token; tokens are dense and follow the table:
operators first, then the required features, then, if sentiment is enabled, its features.  Names
are found in any ASCII letter case.
-/

set_option autoImplicit false

namespace FactorSearch

structure Token where
  id : UInt16
  deriving DecidableEq, Repr

namespace Token

/-- The token of an index; only its low sixteen bits count. -/
def ofNat (index : Nat) : Token := ⟨UInt16.ofNat index⟩

def index (token : Token) : Nat := token.id.toNat

def text (token : Token) : String := s!"#{token.index}"

end Token

def requiredFeatures : List String := ["RET", "VOL", "VOLUME_CHG", "TURNOVER"]

/-- The features that exist only with sentiment enabled. -/
def sentimentFeatures : List String := ["SENTIMENT", "NEWS_COUNT"]

structure Entry where
  name : String
  operator : Operator
  deriving DecidableEq, Repr

namespace Entry

def arity (entry : Entry) : Nat := entry.operator.arity

def category (entry : Entry) : Category := entry.operator.category

def feature? (entry : Entry) : Option String :=
  match entry.operator with
  | .feature name => some name
  | _ => none

def isLeaf (entry : Entry) : Bool := entry.feature?.isSome

end Entry

def operatorEntries : List Entry :=
  [⟨"ADD", .add⟩, ⟨"SUB", .sub⟩, ⟨"MUL", .mul⟩, ⟨"DIV", .div⟩, ⟨"NEG", .neg⟩, ⟨"ABS", .abs⟩,
    ⟨"SIGN", .sign⟩, ⟨"GATE", .gate⟩, ⟨"MAX", .max⟩, ⟨"MIN", .min⟩, ⟨"DELAY1", .delay 1⟩,
    ⟨"DELAY5", .delay 5⟩, ⟨"DELTA1", .delta 1⟩, ⟨"DELTA5", .delta 5⟩, ⟨"MA5", .mean 5⟩,
    ⟨"MA10", .mean 10⟩, ⟨"MA20", .mean 20⟩, ⟨"STD5", .deviation 5⟩, ⟨"STD10", .deviation 10⟩,
    ⟨"STD20", .deviation 20⟩, ⟨"DECAY", .decay 10⟩, ⟨"MAX3", .highest 3⟩, ⟨"RANK", .rank⟩,
    ⟨"ZSCORE", .zScore⟩]

def featureEntry (name : String) : Entry := ⟨name, .feature name⟩

def plainEntries : List Entry := operatorEntries ++ requiredFeatures.map featureEntry

def sentimentEntries : List Entry := plainEntries ++ sentimentFeatures.map featureEntry

/-- A text in upper case; only ASCII letters change. -/
def upperName (name : String) : String := String.ofList (name.toList.map Char.toUpper)

structure Vocabulary where
  sentiment : Bool
  deriving DecidableEq, Repr

namespace Vocabulary

def entries (v : Vocabulary) : List Entry := if v.sentiment then sentimentEntries else plainEntries

def size (v : Vocabulary) : Nat := v.entries.length

def entry? (v : Vocabulary) (token : Token) : Option Entry := v.entries[token.index]?

def arity? (v : Vocabulary) (token : Token) : Option Nat := (v.entry? token).map Entry.arity

def token? (v : Vocabulary) (name : String) : Option Token :=
  let wanted := upperName name
  (v.entries.findIdx? fun entry => entry.name = wanted).map Token.ofNat

def find? (v : Vocabulary) (name : String) : Option Entry := (v.token? name).bind v.entry?

def ofCategory (v : Vocabulary) (category : Category) : List Entry :=
  v.entries.filter fun entry => entry.category = category

def leaves (v : Vocabulary) : List Entry := v.ofCategory .leaf

def arities (v : Vocabulary) : List Nat := v.entries.map Entry.arity

def maxArity (v : Vocabulary) : Nat := v.arities.foldl Nat.max 0

def distinctArities (v : Vocabulary) : List Nat :=
  (List.range (v.maxArity + 1)).filter fun k => v.arities.contains k

def featureNames (v : Vocabulary) : List String := v.entries.filterMap Entry.feature?

end Vocabulary

end FactorSearch
