import FactorSearch.CommandLine.Arguments

/-!
# Help texts

What the program prints when it is asked for help or for its version.
-/

set_option autoImplicit false

namespace FactorSearch

namespace CommandLine

def versionText : String := "alphaminer 0.1.0\n"

def Verb.about : Verb → String
  | .train => "Train the policy and stream one JSON record per step"
  | .evaluate => "Backtest a single formula such as \"ADD(RET, MA5(VOL))\""
  | .operators => "List the operator vocabulary"

def Flag.about : Flag → String
  | .config => "TOML or JSON configuration; ALPHAMINER__SECTION__KEY variables override it"
  | .data =>
    "Long-format panel CSV (date, instrument, features...). Synthetic data when omitted"
  | .instruments => "[default: 50]"
  | .periods => "[default: 252]"
  | .dataSeed => "[default: 42]"
  | .sentiment => "Add SENTIMENT and NEWS_COUNT to the vocabulary"
  | .output => "Write records here instead of stdout"
  | _ => ""

/-- What an option does, as one command tells it. -/
def aboutFlag (verb : Option Verb) (flag : Flag) : String :=
  if verb = some .operators ∧ flag = .sentiment then "" else flag.about

def Flag.usage (flag : Flag) : String :=
  let value := flag.name.map fun c => if c = '-' then '_' else c.toUpper
  "    --" ++ flag.name ++
    match flag.value with
    | .none => ""
    | _ => " <" ++ value ++ ">"

def columns (rows : List (String × String)) : String :=
  let width := rows.foldl (fun width row => Nat.max width row.1.length) 0
  String.join (rows.map fun row =>
    "  " ++ row.1.pushn ' ' (width - row.1.length) ++ "  " ++ row.2 ++ "\n")

def optionLines (verb : Option Verb) : String :=
  columns ((Flag.allowed verb).map (fun flag => (flag.usage, aboutFlag verb flag)) ++
    [("-h, --help", "Print help")] ++
    match verb with
    | none => [("-V, --version", "Print version")]
    | some _ => [])

def helpText : Option Verb → String
  | none =>
    "Formula alpha mining with a grammar-constrained policy\n\n" ++
      "Usage: alphaminer [OPTIONS] <COMMAND>\n\nCommands:\n" ++
      columns ([Verb.train, .evaluate, .operators].map (fun verb => (verb.name, verb.about)) ++
        [("help", "Print this message or the help of the given subcommand(s)")]) ++
      "\nOptions:\n" ++ optionLines none
  | some verb =>
    verb.about ++ "\n\nUsage: alphaminer " ++ verb.name ++ " [OPTIONS]" ++
      (if verb = .evaluate then " <FORMULA>\n\nArguments:\n  <FORMULA>  \n" else "\n") ++
      "\nOptions:\n" ++ optionLines (some verb)

end CommandLine

end FactorSearch
