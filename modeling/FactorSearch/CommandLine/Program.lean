import FactorSearch.CommandLine.Usage
import FactorSearch.Market.Csv
import FactorSearch.Market.Synthetic
import FactorSearch.Report
import FactorSearch.Settings.Layers

/-!
# The program

What a command line does, as a function of the files it reads, the environment variables, and a
seed for what is not seeded.  The outcome is an exit code, the text for the standard output, notes
for the reader, and at most one file to write.
-/

set_option autoImplicit false

namespace FactorSearch

namespace CommandLine

structure Surroundings where
  file : String → Option String
  environment : List (String × String)
  seed : UInt64

structure Effect where
  exitCode : Nat
  output : String
  notes : String := ""
  file : Option (String × String) := none

def failureCode : Nat := 1

def misuseCode : Nat := 2

def failed (failure : Failure) : Effect :=
  { exitCode := failureCode, output := "", notes := "Error: " ++ failure.message ++ "\n" }

def Invocation.files (i : Invocation) : List String :=
  [Flag.config, Flag.data].filterMap i.arguments.path?

def settings (w : Surroundings) (a : Arguments) : Result (Settings Float) :=
  match a.path? .config with
  | none => Layers.load none w.environment
  | some path =>
    match Layers.Format.ofPath? path, w.file path with
    | some format, some text => Layers.load (some (format, text)) w.environment
    | _, _ => .error .settings

/-- The observations of an invocation: from a file, or all features of a synthetic market. -/
def observations (w : Surroundings) (source : DataSource) : Result (Observations Float) :=
  match source.file with
  | some path => Csv.load (w.file path)
  | none =>
    let market : SyntheticMarket :=
      ⟨source.instruments, 6, source.periods, UInt64.ofNat source.seed⟩
    market.generate.map fun features => ⟨source.periods, source.instruments, features⟩

def trainingOptions (a : Arguments) : Training.Options where
  stepCount := a.count? .steps
  batchSize := a.count? .batchSize
  seed := a.count? .seed
  sentiment := if a.isSet .sentiment then some true else none

def recordLines (records : List (Training.StepRecord Float)) : String :=
  String.join (records.map fun r => (Report.stepRecord Json.float r).compact ++ "\n")

def emit (a : Arguments) (e : Effect) (text : String) : Effect :=
  match a.path? .output with
  | some path => { e with file := some (path, text) }
  | none => { e with output := text }

def train (w : Surroundings) (a : Arguments) (settings : Settings Float) : Effect :=
  match observations w a.dataSource with
  | .error failure => failed failure
  | .ok data =>
    match Miner.create settings data.features with
    | .error failure => failed failure
    | .ok miner =>
      match miner.train (trainingOptions a) w.seed with
      | .error failure => emit a (failed failure) ""
      | .ok run =>
        let drive := run.finish (fun _ => false) false
        let lines := recordLines drive.records
        match drive.failure? with
        | some failure => emit a (failed failure) lines
        | none =>
          let summary := (Report.summary Json.float drive.run.summary).pretty 0 ++ "\n"
          emit a { exitCode := 0, output := "", notes := summary } lines

def evaluate (w : Surroundings) (a : Arguments) (settings : Settings Float) : Effect :=
  match observations w a.dataSource with
  | .error failure => failed failure
  | .ok data =>
    match Miner.create settings data.features with
    | .error failure => failed failure
    | .ok miner =>
      match miner.evaluate (.text (a.formula.getD "")) with
      | .error failure => failed failure
      | .ok outcome =>
        { exitCode := 0, output := (Report.outcome Json.float outcome).pretty 0 ++ "\n" }

def operators (a : Arguments) (settings : Settings Float) : Effect :=
  let sentiment := a.isSet .sentiment || settings.features.sentiment
  { exitCode := 0, output := Report.vocabulary ⟨sentiment⟩ }

def Invocation.run (w : Surroundings) (i : Invocation) : Effect :=
  match settings w i.arguments with
  | .error failure => failed failure
  | .ok settings =>
    match i.verb with
    | .train => train w i.arguments settings
    | .evaluate => evaluate w i.arguments settings
    | .operators => operators i.arguments settings

def Stop.effect : Stop → Effect
  | .help verb => { exitCode := 0, output := helpText verb }
  | .version => { exitCode := 0, output := versionText }
  | .misuse => { exitCode := misuseCode, output := "", notes := helpText none }

def run (w : Surroundings) (arguments : List String) : Effect :=
  match read arguments with
  | .error stop => stop.effect
  | .ok invocation => invocation.run w

end CommandLine

end FactorSearch
