import FactorSearch.Evaluation.Degeneracy
import FactorSearch.Failure
import FactorSearch.Formula.Syntax

/-!
# Settings

What a search is configured with, in four sections, and the ranges that validation enforces.
Comparisons with a missing number are false, which decides whether such a number passes.
-/

set_option autoImplicit false

namespace FactorSearch

inductive PrimaryMetric where
  | sortino
  | sharpe
  | ic
  | rankIc
  deriving DecidableEq, Repr

namespace PrimaryMetric

def name : PrimaryMetric → String
  | sortino => "sortino"
  | sharpe => "sharpe"
  | ic => "ic"
  | rankIc => "rank_ic"

def all : List PrimaryMetric := [sortino, sharpe, ic, rankIc]

def names : List String := all.map name

def ofName? (text : String) : Option PrimaryMetric := all.find? fun metric => metric.name = text

end PrimaryMetric

structure ModelSettings where
  width : Nat := 64
  layers : Nat := 2
  heads : Nat := 4
  maxLength : Nat := 15
  deriving DecidableEq, Repr

structure TrainingSettings (α : Type) where
  batchSize : Nat
  learningRate : α
  stepCount : Nat
  entropyCoefficient : α
  baselineDecay : α
  maxGradientNorm : α
  seed : Option Nat
  hallSize : Nat

structure RewardSettings (α : Type) where
  invalidReward : α
  degenerateReward : α
  costRate : α
  signalThreshold : α
  primaryMetric : PrimaryMetric
  maxMissing : α
  maxFlat : α
  flatDeviation : α

structure FeatureSettings where
  sentiment : Bool := false
  deriving DecidableEq, Repr

structure Settings (α : Type) where
  model : ModelSettings
  training : TrainingSettings α
  reward : RewardSettings α
  features : FeatureSettings

namespace ModelSettings

def validate (s : ModelSettings) : Result Unit :=
  if s.heads = 0 ∨ s.width = 0 ∨ s.width % s.heads ≠ 0 then
    .error (.configuration (.headsDoNotDivide s.width s.heads))
  else if s.maxLength = 0 then .error (.configuration .noLength)
  else if Formula.sizeLimit < s.maxLength then
    .error (.configuration (.lengthBeyondParser s.maxLength Formula.sizeLimit))
  else .ok ()

end ModelSettings

variable {α : Type} [Scalar α]

namespace TrainingSettings

def defaults : TrainingSettings α where
  batchSize := 32
  learningRate := 1e-3
  stepCount := 100
  entropyCoefficient := 0.01
  baselineDecay := 0.9
  maxGradientNorm := 1
  seed := none
  hallSize := 10

def validate (s : TrainingSettings α) : Result Unit :=
  if s.batchSize = 0 then .error (.configuration .emptyBatch)
  else if !(Scalar.lt 0 s.learningRate && Scalar.isFinite s.learningRate) then
    .error (.configuration .learningRate)
  else if !(Scalar.le 0 s.baselineDecay && Scalar.lt s.baselineDecay 1) then
    .error (.configuration .baselineDecay)
  else if Scalar.lt s.entropyCoefficient 0 then .error (.configuration .entropyCoefficient)
  else if Scalar.le s.maxGradientNorm 0 then .error (.configuration .gradientNorm)
  else .ok ()

end TrainingSettings

namespace RewardSettings

def defaults : RewardSettings α where
  invalidReward := -5
  degenerateReward := -2
  costRate := 0.001
  signalThreshold := 0.5
  primaryMetric := .sortino
  maxMissing := 0.5
  maxFlat := 0.9
  flatDeviation := 1e-10

def limits (s : RewardSettings α) : DegeneracyLimits α :=
  ⟨s.maxMissing, s.maxFlat, s.flatDeviation⟩

@[inline] def isRatio (x : α) : Bool := Scalar.le 0 x && Scalar.le x 1

/-- Penalties have to lie below every reward that a metric can give. -/
def validate (s : RewardSettings α) : Result Unit :=
  if !(Scalar.le s.invalidReward s.degenerateReward && Scalar.lt s.degenerateReward (-1)) then
    .error (.configuration
      (.penaltyOrder (Scalar.text s.invalidReward) (Scalar.text s.degenerateReward)))
  else if Scalar.lt s.costRate 0 || Scalar.lt s.signalThreshold 0 then
    .error (.configuration .costOrThreshold)
  else if !isRatio s.maxMissing || !isRatio s.maxFlat then
    .error (.configuration .degeneracyRatio)
  else if Scalar.lt s.flatDeviation 0 then .error (.configuration .varianceEpsilon)
  else .ok ()

end RewardSettings

namespace FeatureSettings

def validate (_ : FeatureSettings) : Result Unit := .ok ()

end FeatureSettings

namespace Settings

def defaults : Settings α := ⟨{}, .defaults, .defaults, {}⟩

/-- The first section that is out of range decides the failure. -/
def validate (s : Settings α) : Result Unit := do
  s.model.validate
  s.training.validate
  s.reward.validate
  s.features.validate

def vocabulary (s : Settings α) : Vocabulary := ⟨s.features.sentiment⟩

end Settings

end FactorSearch
