import FactorSearch.Decimal.Numeral
import FactorSearch.Settings.Document
import FactorSearch.Text.Toml

/-!
# Layers of settings

Settings come from defaults, then a document, then environment variables.  A later layer goes over
an earlier one key by key, through nested objects.  A variable whose name is the program's name, a
section and a field, joined by double underscores and in any letter case, sets one field.  Reading
converts freely between numbers, truth values and texts that spell them.
-/

set_option autoImplicit false

namespace FactorSearch

namespace Layers

/-! ## Single values -/

/-- A number as an integer of sixty-four bits with sign, when it is written as one. -/
def integer? (literal : String) : Option Int :=
  match Numeral.int? literal.toList with
  | some n => if -Int.pow 2 63 ≤ n ∧ n < Int.pow 2 63 then some n else none
  | none => none

def word? (s : String) : Option Bool :=
  let s := s.toLower
  if s = "true" ∨ s = "on" ∨ s = "yes" then some true
  else if s = "false" ∨ s = "off" ∨ s = "no" then some false
  else none

def countText? (s : String) : Option Nat :=
  match s.toList with
  | '-' :: _ => none
  | text =>
    match Numeral.int? text with
    | some n => if n < Int.pow 2 64 then some n.toNat else none
    | none => none

/-- A count; real numbers are rounded and moved into range. -/
def count? : Json → Option Nat
  | .number literal =>
    match integer? literal with
    | some n => if n < 0 then none else some n.toNat
    | none => (Numeral.float? literal.toList).map fun x => x.round.toUInt64.toNat
  | .bool b => some b.toNat
  | .text s =>
    match word? s with
    | some b => some b.toNat
    | none => countText? s
  | _ => none

def real? : Json → Option Float
  | .number literal => Numeral.float? literal.toList
  | .bool b => some (if b then 1 else 0)
  | .text s =>
    match word? s with
    | some b => some (if b then 1 else 0)
    | none => Numeral.float? s.toList
  | _ => none

def flag? : Json → Option Bool
  | .bool b => some b
  | .number literal =>
    match integer? literal with
    | some n => some (n ≠ 0)
    | none => (Numeral.float? literal.toList).map fun x => !(x == 0)
  | .text s => if s = "1" then some true else if s = "0" then some false else word? s
  | _ => none

def nameIn? (names : List String) (text : String) : Option String :=
  names.find? fun name => name.toLower = text.toLower

/-- A name, as a text or as the only key of an object. -/
def variant? (names : List String) : Json → Option String
  | .text s => nameIn? names s
  | .object [(key, _)] => nameIn? names key
  | _ => none

def isNull : Json → Bool
  | .null => true
  | _ => false

/-- The fields of a section by name: the members of an object, or the items of a list in the order
of the names. -/
def fields? (names : List String) : Json → Option (String → Option Json)
  | .object members => some fun name => members.reverse.lookup name
  | .list items => some fun name => (names.zip items).lookup name
  | _ => none

/-! ## Documents over each other -/

mutual

def overlay (base : Json) : Json → Json
  | .object members =>
    .object (overlayMembers (match base with | .object before => before | _ => []) members)
  | value => value

def overlayMembers (before : List (String × Json)) :
    List (String × Json) → List (String × Json)
  | [] => before
  | (key, value) :: rest =>
    let inner := overlay ((before.lookup key).getD .null) value
    overlayMembers (before.filter (fun member => member.1 ≠ key) ++ [(key, inner)]) rest

end

def isPathPart (c : Char) : Bool := c.isAlphanum || c = '_' || c = '-'

/-- The parts of a key that consists of names separated by dots; any other key is one part. -/
def pathOf (key : String) : List String :=
  let parts := (key.toList.splitOn '.').map String.ofList
  if parts.all fun part => !part.isEmpty && part.toList.all isPathPart then parts else [key]

def nest (path : List String) (value : Json) : Json :=
  path.foldr (fun key inner => .object [(key, inner)]) value

def addLayer (base : Json) (layer : List (String × Json)) : Json :=
  layer.foldl (fun document member => overlay document (nest (pathOf member.1) member.2)) base

/-- Whether a variable is one of the program's, by the start of its name in any letter case. -/
def isOwn (start separator : String) (setting : String × String) : Bool :=
  setting.1.toLower.startsWith (start ++ separator).toLower

/-- The value that a variable's text spells: a truth value, a number, or the text itself. -/
def variableValue (s : String) : Json :=
  if s.toLower = "true" then .bool true
  else if s.toLower = "false" then .bool false
  else if (integer? s).isSome || (Numeral.float? s.toList).isSome then .number s
  else .text s

def ofVariable? (start separator : String) (setting : String × String) :
    Option (String × Json) :=
  if isOwn start separator setting then
    let key := String.ofList
      (setting.1.toLower.toList.drop (start ++ separator).toLower.length)
    some (".".intercalate (key.splitOn separator), variableValue setting.2)
  else none

def members? (format : Format) (text : String) : Option (List (String × Json)) :=
  let document := match format with
    | .toml => Toml.read? text
    | .json => Json.read? text
  match document with
  | some (.object members) => some members
  | _ => none

def gather (start separator : String) (document : Option (Format × String))
    (environment : List (String × String)) : Option Json := do
  let base ← match document with
    | none => some []
    | some (format, text) => members? format text
  return addLayer (addLayer (.object []) base)
    (environment.filterMap (ofVariable? start separator))

/-! ## Written documents -/

def plainJson : Document.Plain → Json :=
  Document.Plain.toJson fun x => .number (Notation.setting.write x)

def line (field : String × Document.Plain) : String :=
  field.1 ++ " = " ++ (plainJson field.2).compact

def sectionText (part : String × List (String × Document.Plain)) : String :=
  "[" ++ part.1 ++ "]\n" ++ String.join (part.2.map fun field => line field ++ "\n")

def print (sections : Document.Sections) : Option String :=
  if sections.all fun part => part.2.all fun field => field.2.fits then
    some ("\n".intercalate (sections.map sectionText))
  else none

def codec : Document.Codec where
  Value := Json
  print := print
  gather := gather
  fields? := fields?
  isNull := isNull
  count? := count?
  real? := real?
  flag? := flag?
  variant? := variant?
  numeral := Notation.setting.write
  number? := fun s => Numeral.float? s.toList

def load : Option (Format × String) → List (String × String) → Result (Settings Float) :=
  Document.load codec

end Layers

/-- The settings in force, which only ever change to ones that are in range. -/
structure SettingsStore where
  current : Settings Float

namespace SettingsStore

def initial : SettingsStore := ⟨.defaults⟩

def update (change : Settings Float → Settings Float) (store : SettingsStore) :
    Result SettingsStore := do
  let candidate := change store.current
  candidate.validate
  return ⟨candidate⟩

/-- The store with settings loaded from a document; the settings before have no influence. -/
def loadWith (codec : Document.Codec) (_ : SettingsStore) (document : Layers.Format × String)
    (environment : List (String × String)) : Result SettingsStore := do
  let settings ← Document.load codec (some document) environment
  return ⟨settings⟩

def saveWith (codec : Document.Codec) (store : SettingsStore) : Result String :=
  Document.write codec store.current

def load (store : SettingsStore) (document : Layers.Format × String)
    (environment : List (String × String)) : Result SettingsStore :=
  store.loadWith Layers.codec document environment

def save (store : SettingsStore) : Result String := store.saveWith Layers.codec

end SettingsStore

end FactorSearch
