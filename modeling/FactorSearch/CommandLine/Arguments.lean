/-!
# Command-line arguments

What the program is asked to do, read from its arguments.  An option takes its value from the next
argument or after an equals sign and may be given once; a path is never empty.  The option for a
configuration may stand before or after the command, the later one counts.
-/

set_option autoImplicit false

namespace FactorSearch

namespace CommandLine

structure DataSource where
  file : Option String := none
  instruments : Nat := 50
  periods : Nat := 252
  seed : Nat := 42
  deriving DecidableEq, Repr

inductive Verb where
  | train
  | evaluate
  | operators
  deriving DecidableEq, Repr

namespace Verb

def name : Verb → String
  | train => "train"
  | evaluate => "evaluate"
  | operators => "operators"

def ofName? (name : String) : Option Verb :=
  [train, evaluate, operators].find? fun verb => verb.name = name

end Verb

inductive Flag where
  | config
  | data
  | instruments
  | periods
  | dataSeed
  | steps
  | batchSize
  | sentiment
  | seed
  | output
  deriving DecidableEq, Repr

inductive FlagValue where
  | none
  | path
  | count
  deriving DecidableEq, Repr

namespace Flag

def name : Flag → String
  | config => "config"
  | data => "data"
  | instruments => "instruments"
  | periods => "periods"
  | dataSeed => "data-seed"
  | steps => "steps"
  | batchSize => "batch-size"
  | sentiment => "sentiment"
  | seed => "seed"
  | output => "output"

def value : Flag → FlagValue
  | sentiment => .none
  | config | data | output => .path
  | _ => .count

def forData : List Flag := [data, instruments, periods, dataSeed]

def allowed : Option Verb → List Flag
  | none => [config]
  | some .train => config :: forData ++ [steps, batchSize, sentiment, seed, output]
  | some .evaluate => config :: forData
  | some .operators => [config, sentiment]

end Flag

structure Arguments where
  flags : List (Flag × String)
  formula : Option String
  deriving DecidableEq, Repr

namespace Arguments

def empty : Arguments := ⟨[], none⟩

def path? (a : Arguments) (flag : Flag) : Option String := a.flags.lookup flag

def count? (a : Arguments) (flag : Flag) : Option Nat :=
  (a.flags.lookup flag).bind fun s =>
    (if s.startsWith "+" then String.ofList (s.toList.drop 1) else s).toNat?

def isSet (a : Arguments) (flag : Flag) : Bool := (a.flags.lookup flag).isSome

def dataSource (a : Arguments) : DataSource where
  file := a.path? .data
  instruments := (a.count? .instruments).getD 50
  periods := (a.count? .periods).getD 252
  seed := (a.count? .dataSeed).getD 42

end Arguments

/-- What reading the arguments ends in instead of a command. -/
inductive Stop where
  | help (verb : Option Verb)
  | version
  | misuse
  deriving DecidableEq, Repr

structure Invocation where
  verb : Verb
  arguments : Arguments
  deriving DecidableEq, Repr

/-- A count of sixty-four bits in digits, with an optional plus. -/
def isCount (s : String) : Bool :=
  let digits := match s.toList with
    | '+' :: rest => rest
    | text => text
  !digits.isEmpty && digits.all Char.isDigit &&
    digits.foldl (fun value c => value * 10 + (c.toNat - '0'.toNat)) 0 < Nat.pow 2 64

def accepts (flag : Flag) (s : String) : Bool :=
  match flag.value with
  | .none => false
  | .path => !s.isEmpty
  | .count => isCount s

def splitFlag (s : String) : String × Option String :=
  let text := s.toList
  match text.dropWhile (· ≠ '=') with
  | _ :: value => (String.ofList (text.takeWhile (· ≠ '=')), some (String.ofList value))
  | [] => (s, none)

def isOption (s : String) : Bool := s.startsWith "-" && s ≠ "-"

def addFlag (a : Arguments) (flag : Flag) (value : String) : Except Stop Arguments :=
  if a.isSet flag then .error .misuse else .ok { a with flags := (flag, value) :: a.flags }

def addFormula (verb : Verb) (a : Arguments) (s : String) : Except Stop Arguments :=
  if verb = .evaluate ∧ a.formula = none then .ok { a with formula := some s }
  else .error .misuse

/-- An option at the front of the arguments, without its dashes, and what is left of them. -/
def readFlag (verb : Option Verb) (a : Arguments) (name : String) (rest : List String) :
    Except Stop (Arguments × List String) :=
  let (key, value?) := splitFlag name
  if key = "help" ∧ value? = none then .error (.help verb)
  else if verb = none ∧ key = "version" ∧ value? = none then .error .version
  else
    match (Flag.allowed verb).find? fun flag => flag.name = key with
    | none => .error .misuse
    | some flag =>
      match flag.value, value?, rest with
      | .none, none, _ => (addFlag a flag "").map fun a => (a, rest)
      | .none, some _, _ => .error .misuse
      | _, some value, _ =>
        if accepts flag value then (addFlag a flag value).map fun a => (a, rest)
        else .error .misuse
      | _, none, value :: rest =>
        if isOption value || !accepts flag value then .error .misuse
        else (addFlag a flag value).map fun a => (a, rest)
      | _, none, [] => .error .misuse

/-- The arguments of a command.  After two dashes alone nothing is an option any more. -/
def readArguments (verb : Verb) : Nat → Bool → Arguments → List String → Except Stop Arguments
  | _, _, a, [] => .ok a
  | 0, _, _, _ => .error .misuse
  | fuel + 1, literal, a, s :: rest =>
    if literal || !isOption s then
      match addFormula verb a s with
      | .error stop => .error stop
      | .ok a => readArguments verb fuel literal a rest
    else if s = "--" then readArguments verb fuel true a rest
    else if s.startsWith "--" then
      match readFlag (some verb) a (String.ofList (s.toList.drop 2)) rest with
      | .error stop => .error stop
      | .ok (a, rest) => readArguments verb fuel false a rest
    else if s.startsWith "-h" then .error (.help (some verb))
    else .error .misuse

def helpAbout : List String → Stop
  | [] => .help none
  | [name] =>
    match Verb.ofName? name with
    | some verb => .help (some verb)
    | none => if name = "help" then .help none else .misuse
  | _ => .misuse

def readFrom : Nat → Arguments → List String → Except Stop Invocation
  | _, _, [] => .error .misuse
  | 0, _, _ => .error .misuse
  | fuel + 1, before, s :: rest =>
    if s.startsWith "-h" then .error (.help none)
    else if s.startsWith "-V" then .error .version
    else if s.startsWith "--" ∧ s ≠ "--" then
      match readFlag none before (String.ofList (s.toList.drop 2)) rest with
      | .error stop => .error stop
      | .ok (before, rest) => readFrom fuel before rest
    else if s = "help" then .error (helpAbout rest)
    else
      match Verb.ofName? s with
      | none => .error .misuse
      | some verb =>
        match readArguments verb (rest.length + 1) false .empty rest with
        | .error stop => .error stop
        | .ok a =>
          if verb = .evaluate ∧ a.formula = none then .error .misuse
          else .ok ⟨verb, { a with flags := a.flags ++ before.flags }⟩

def read (arguments : List String) : Except Stop Invocation :=
  readFrom (arguments.length + 1) .empty arguments

end CommandLine

end FactorSearch
