import FactorSearch.Miner
import FactorSearch.Training.HallOfFame
import FactorSearch.Training.Initialization
import FactorSearch.Training.Learner

/-!
# Training runs

A run owns a policy, a stream of words, a step counter and what it has found.  A step samples a
batch of programs, scores them, updates the policy and keeps the best factor.  `Run.next` takes one
step unless the run has ended, has made all its steps, or is cancelled; a step that fails ends the
run and changes nothing else but the stream.
-/

set_option autoImplicit false

namespace FactorSearch

namespace Training

inductive RunState where
  | idle
  | running (step : Nat)
  | completed
  | aborted
  | failed (failure : Failure)
  deriving DecidableEq

namespace RunState

def isTerminal : RunState → Bool
  | completed => true
  | aborted => true
  | failed _ => true
  | _ => false

def description : RunState → String
  | idle => "Idle"
  | running step => "Running \x7b step: " ++ toString step ++ " \x7d"
  | completed => "Completed"
  | aborted => "Aborted"
  | failed failure => "Error \x7b message: \"" ++ failure.message ++ "\" \x7d"

end RunState

structure StepRecord (α : Type) where
  step : Nat
  averageReward : α
  maxReward : α
  loss : α
  validRatio : α
  bestScore : Option α
  bestFormula : Option String

structure Summary (α : Type) where
  bestScore : Option α
  bestFormula : Option String
  bestMetrics : Option (Metrics α)
  totalSteps : Nat
  state : RunState
  hall : List (Factor α)

/-- A training run.  `announced` holds every factor that became the best, in order. -/
structure Run (α : Type) (periods instruments : Nat) where
  settings : TrainingSettings α
  generator : Sampling.Generator
  scorer : Scorer α periods instruments
  shape : Policy.Shape
  learner : Learner α shape
  stream : WordStream
  baseline : Option α
  step : Nat
  state : RunState
  records : Array (StepRecord α)
  best : Option (Factor α)
  hall : HallOfFame α
  announced : List (Factor α)

namespace Run

variable {α : Type} [Scalar α] {periods instruments : Nat}

/-- A fresh run on a feature set.  Without a seed in the settings it takes the given one. -/
@[specialize] def create (settings : Settings α) (v : Vocabulary)
    (features : FeatureSet α periods instruments) (fallbackSeed : UInt64) :
    Result (Run α periods instruments) := do
  settings.validate
  features.require v.featureNames
  let model := settings.model
  let training := settings.training
  let shape ← Policy.Shape.create v.size model.maxLength model.width model.heads model.layers
  let scorer ← Scorer.create v settings.reward features
  let seed := match training.seed with
    | some seed => UInt64.ofNat seed
    | none => fallbackSeed
  return {
    settings := training
    generator := .ofVocabulary v model.maxLength
    scorer := scorer
    shape := shape
    learner := .fresh training.learningRate (initialParameters shape seed)
    stream := .ofSeed (WordStream.mix seed)
    baseline := none
    step := 0
    state := .idle
    records := #[]
    best := none
    hall := .empty training.hallSize
    announced := [] }

def factor? {s : Policy.Shape} (step : Nat) (e : Episode α s) : Option (Factor α) :=
  match e.sample.draw, e.verdict with
  | .valid _ formula, .scored metrics reward => some ⟨formula, reward, metrics, step⟩
  | _, _ => none

@[specialize] def leader? (factors : List (Factor α)) : Option (Factor α) :=
  factors.foldl (fun leader factor =>
    match leader with
    | none => some factor
    | some best => if Scalar.lt best.reward factor.reward then some factor else leader) none

@[specialize] def track (run : Run α periods instruments) (factors : List (Factor α)) :
    Run α periods instruments :=
  let run := { run with hall := run.hall.offerAll factors }
  match leader? factors with
  | none => run
  | some leader =>
    let beaten := match run.best with
      | some best => Scalar.le leader.reward best.reward
      | none => false
    if beaten then run
    else { run with best := some leader, announced := run.announced ++ [leader] }

@[specialize] def nextBaseline (settings : TrainingSettings α) (before : Option α)
    (average : α) : α :=
  match before with
  | none => average
  | some previous => settings.baselineDecay * previous + (1 - settings.baselineDecay) * average

/-- The record of a batch that has been sampled and scored, and the run after it. -/
@[specialize] def learn (run : Run α periods instruments) (batch : List (Episode α run.shape)) :
    StepRecord α × Run α periods instruments :=
  let size : α := batchSize batch
  let rewards := batch.map Episode.reward
  let average := Scalar.total rewards / size
  let baseline := nextBaseline run.settings run.baseline average
  let (loss, learner) := run.learner.update run.settings baseline batch
  let tracked := { run with baseline := some baseline, learner := learner }.track
    (batch.filterMap (factor? run.step))
  let record : StepRecord α :=
    { step := run.step
      averageReward := average
      maxReward := Scalar.maximum rewards
      loss := loss
      validRatio := Scalar.ofNat (batch.countP fun e => e.sample.draw.isValid) / size
      bestScore := tracked.best.map Factor.reward
      bestFormula := tracked.best.map Factor.formula }
  (record, { tracked with records := tracked.records.push record })

@[specialize] def batch (run : Run α periods instruments) :
    Result (List (Episode α run.shape)) × WordStream :=
  match run.generator.samples run.learner.parameters run.settings.batchSize run.stream with
  | (.error failure, stream) => (.error failure, stream)
  | (.ok samples, stream) => (episodes run.scorer samples, stream)

/-- One step: its record or why it failed, and the run after it. -/
@[specialize] def advance (run : Run α periods instruments) :
    Result (StepRecord α) × Run α periods instruments :=
  if run.state.isTerminal then
    (.error (.internal (.finishedRun run.state.description)), run)
  else
    match run.batch with
    | (.error failure, stream) =>
      (.error failure, { run with stream := stream, state := .failed failure })
    | (.ok batch, stream) =>
      let (record, learned) := run.learn batch
      let done := run.step + 1
      (.ok record,
        { learned with
          stream := stream
          step := done
          state := if run.settings.stepCount ≤ done then .completed else .running run.step })

@[specialize] def next (cancelled : Bool) (run : Run α periods instruments) :
    Option (Result (StepRecord α)) × Run α periods instruments :=
  if run.state.isTerminal then (none, run)
  else if run.settings.stepCount ≤ run.step then (none, { run with state := .completed })
  else if cancelled then (none, { run with state := .aborted })
  else
    let (record, run) := run.advance
    (some record, run)

structure Drive (α : Type) (periods instruments : Nat) where
  items : List (Result (StepRecord α))
  cancelled : Bool
  run : Run α periods instruments

namespace Drive

def records (d : Drive α periods instruments) : List (StepRecord α) :=
  d.items.filterMap Except.toOption

def failure? (d : Drive α periods instruments) : Option Failure :=
  d.items.findSome? fun item =>
    match item with
    | .error failure => some failure
    | .ok _ => none

end Drive

/-- At most `limit` items of a run.  A record for which `signal` holds cancels the run. -/
@[specialize] def take (signal : StepRecord α → Bool) :
    Nat → Bool → Run α periods instruments → Drive α periods instruments
  | 0, cancelled, run => ⟨[], cancelled, run⟩
  | limit + 1, cancelled, run =>
    match run.next cancelled with
    | (none, run) => ⟨[], cancelled, run⟩
    | (some (.error failure), run) => ⟨[.error failure], cancelled, run⟩
    | (some (.ok record), run) =>
      let rest := take signal limit (cancelled || signal record) run
      { rest with items := .ok record :: rest.items }

def remaining (run : Run α periods instruments) : Nat := run.settings.stepCount - run.step + 2

@[specialize] def finish (signal : StepRecord α → Bool) (cancelled : Bool)
    (run : Run α periods instruments) : Drive α periods instruments :=
  run.take signal run.remaining cancelled

def summary (run : Run α periods instruments) : Summary α :=
  { bestScore := run.best.map Factor.reward
    bestFormula := run.best.map Factor.formula
    bestMetrics := run.best.map Factor.metrics
    totalSteps := run.records.size
    state := run.state
    hall := run.hall.factors }

end Run

structure Options where
  stepCount : Option Nat := none
  batchSize : Option Nat := none
  seed : Option Nat := none
  sentiment : Option Bool := none
  deriving DecidableEq, Repr

def Options.applyTo {α : Type} (options : Options) (settings : Settings α) : Settings α :=
  let training := settings.training
  { settings with
    training :=
      { training with
        stepCount := options.stepCount.getD training.stepCount
        batchSize := options.batchSize.getD training.batchSize
        seed := options.seed <|> training.seed }
    features := ⟨options.sentiment.getD settings.features.sentiment⟩ }

end Training

namespace Miner

@[specialize] def train {α : Type} [Scalar α] {periods instruments : Nat}
    (m : Miner α periods instruments) (options : Training.Options) (fallbackSeed : UInt64) :
    Result (Training.Run α periods instruments) :=
  let settings := options.applyTo m.settings
  Training.Run.create settings settings.vocabulary m.features fallbackSeed

end Miner

end FactorSearch
