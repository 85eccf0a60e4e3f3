import FactorSearch.Settings.Basic
import FactorSearch.Settings.Codec
import FactorSearch.Text.Json

/-!
# Settings as documents

Settings are read from a document over a base: what it lacks keeps the base's value, and fields that
no section knows are ignored.  They are written as sections, with a field for the seed only if there
is one.
-/

set_option autoImplicit false

namespace FactorSearch

namespace Document

/-! ## Reading -/

section Reading

variable (codec : Codec)

def metric? (value : codec.Value) : Option PrimaryMetric :=
  (codec.variant? PrimaryMetric.names value).bind PrimaryMetric.ofName?

def optional? {β : Type} (read : codec.Value → Option β) (value : codec.Value) :
    Option (Option β) :=
  if codec.isNull value then some none else (read value).map some

def field? {β γ : Type} (fields : String → Option γ) (name : String) (read : γ → Option β)
    (base : β) : Option β :=
  match fields name with
  | some value => read value
  | none => some base

def model? (base : ModelSettings) (part : codec.Value) : Option ModelSettings := do
  let fields ← codec.fields? ["d_model", "num_layers", "nhead", "max_seq_len"] part
  return {
    width := ← field? fields "d_model" codec.count? base.width
    layers := ← field? fields "num_layers" codec.count? base.layers
    heads := ← field? fields "nhead" codec.count? base.heads
    maxLength := ← field? fields "max_seq_len" codec.count? base.maxLength }

def training? (base : TrainingSettings Float) (part : codec.Value) :
    Option (TrainingSettings Float) := do
  let fields ← codec.fields?
    ["batch_size", "learning_rate", "num_steps", "entropy_coef", "baseline_decay",
      "max_grad_norm", "seed", "hall_of_fame_size"] part
  return {
    batchSize := ← field? fields "batch_size" codec.count? base.batchSize
    learningRate := ← field? fields "learning_rate" codec.real? base.learningRate
    stepCount := ← field? fields "num_steps" codec.count? base.stepCount
    entropyCoefficient := ← field? fields "entropy_coef" codec.real? base.entropyCoefficient
    baselineDecay := ← field? fields "baseline_decay" codec.real? base.baselineDecay
    maxGradientNorm := ← field? fields "max_grad_norm" codec.real? base.maxGradientNorm
    seed := ← field? fields "seed" (optional? codec codec.count?) base.seed
    hallSize := ← field? fields "hall_of_fame_size" codec.count? base.hallSize }

def reward? (base : RewardSettings Float) (part : codec.Value) :
    Option (RewardSettings Float) := do
  let fields ← codec.fields?
    ["invalid_formula_reward", "constant_factor_reward", "cost_rate", "signal_threshold",
      "primary_metric", "max_nan_ratio", "constant_ratio", "variance_epsilon"] part
  return {
    invalidReward := ← field? fields "invalid_formula_reward" codec.real? base.invalidReward
    degenerateReward := ← field? fields "constant_factor_reward" codec.real? base.degenerateReward
    costRate := ← field? fields "cost_rate" codec.real? base.costRate
    signalThreshold := ← field? fields "signal_threshold" codec.real? base.signalThreshold
    primaryMetric := ← field? fields "primary_metric" (metric? codec) base.primaryMetric
    maxMissing := ← field? fields "max_nan_ratio" codec.real? base.maxMissing
    maxFlat := ← field? fields "constant_ratio" codec.real? base.maxFlat
    flatDeviation := ← field? fields "variance_epsilon" codec.real? base.flatDeviation }

def features? (base : FeatureSettings) (part : codec.Value) : Option FeatureSettings := do
  let fields ← codec.fields? ["enable_sentiment"] part
  return { sentiment := ← field? fields "enable_sentiment" codec.flag? base.sentiment }

/-- Settings over a base, not yet checked for their ranges. -/
def settings? (base : Settings Float) (document : codec.Value) : Option (Settings Float) := do
  let fields ← codec.fields? ["model", "training", "reward", "features"] document
  return {
    model := ← field? fields "model" (model? codec base.model) base.model
    training := ← field? fields "training" (training? codec base.training) base.training
    reward := ← field? fields "reward" (reward? codec base.reward) base.reward
    features := ← field? fields "features" (features? codec base.features) base.features }

def environmentStart : String := "ALPHAMINER"

def environmentSeparator : String := "__"

/-- Settings from a document, if there is one, and the environment, within their ranges. -/
def load (document : Option (Layers.Format × String)) (environment : List (String × String)) :
    Result (Settings Float) :=
  match codec.gather environmentStart environmentSeparator document environment with
  | none => .error .settings
  | some value =>
    match settings? codec .defaults value with
    | none => .error .settings
    | some settings => do
      settings.validate
      return settings

end Reading

/-! ## Writing -/

def modelFields (s : ModelSettings) : List (String × Option Plain) :=
  [("d_model", some (.count s.width)), ("num_layers", some (.count s.layers)),
    ("nhead", some (.count s.heads)), ("max_seq_len", some (.count s.maxLength))]

def trainingFields (s : TrainingSettings Float) : List (String × Option Plain) :=
  [("batch_size", some (.count s.batchSize)), ("learning_rate", some (.real s.learningRate)),
    ("num_steps", some (.count s.stepCount)), ("entropy_coef", some (.real s.entropyCoefficient)),
    ("baseline_decay", some (.real s.baselineDecay)),
    ("max_grad_norm", some (.real s.maxGradientNorm)), ("seed", s.seed.map .count),
    ("hall_of_fame_size", some (.count s.hallSize))]

def rewardFields (s : RewardSettings Float) : List (String × Option Plain) :=
  [("invalid_formula_reward", some (.real s.invalidReward)),
    ("constant_factor_reward", some (.real s.degenerateReward)),
    ("cost_rate", some (.real s.costRate)), ("signal_threshold", some (.real s.signalThreshold)),
    ("primary_metric", some (.name s.primaryMetric.name)),
    ("max_nan_ratio", some (.real s.maxMissing)), ("constant_ratio", some (.real s.maxFlat)),
    ("variance_epsilon", some (.real s.flatDeviation))]

def featureFields (s : FeatureSettings) : List (String × Option Plain) :=
  [("enable_sentiment", some (.flag s.sentiment))]

def fieldsOf (s : Settings Float) : List (String × List (String × Option Plain)) :=
  [("model", modelFields s.model), ("training", trainingFields s.training),
    ("reward", rewardFields s.reward), ("features", featureFields s.features)]

def stated (fields : List (String × Option Plain)) : List (String × Plain) :=
  fields.filterMap fun field => field.2.map fun value => (field.1, value)

def sections (s : Settings Float) : Sections := (fieldsOf s).map fun p => (p.1, stated p.2)

def write (codec : Codec) (s : Settings Float) : Result String :=
  match codec.print (sections s) with
  | some text => .ok text
  | none => .error .settingsOutput

def Plain.toJson (real : Float → Json) : Plain → Json
  | .count n => .nat n
  | .real x => real x
  | .flag b => .bool b
  | .name s => .text s

/-- Settings as an object, with real numbers written by `real`. -/
def ofSettings (real : Float → Json) (s : Settings Float) : Json :=
  .object ((fieldsOf s).map fun p =>
    (p.1, .object (p.2.map fun field => (field.1, Json.optional (Plain.toJson real) field.2))))

end Document

end FactorSearch
