import FactorSearch.Scoring

/-!
# The miner

Validated settings bound to one feature set.  It evaluates formulas, given as text or as tokens.
-/

set_option autoImplicit false

namespace FactorSearch

inductive FormulaInput where
  | text (formula : String)
  | tokens (program : Program)

/-- What evaluating a formula ends in.  The formula is in its canonical rendering. -/
inductive Outcome (α : Type) where
  | scored (formula : String) (metrics : Metrics α) (reward : α)
  | invalid (reason : Rejection) (reward : α)
  | degenerate (formula : String) (reason : Degeneracy α) (reward : α)

namespace Outcome

variable {α : Type}

def reward : Outcome α → α
  | scored _ _ reward => reward
  | invalid _ reward => reward
  | degenerate _ _ reward => reward

def formula? : Outcome α → Option String
  | scored formula _ _ => some formula
  | degenerate formula _ _ => some formula
  | invalid _ _ => none

def ofAssessment (formula : String) : Assessment α → Outcome α
  | .scored metrics reward => .scored formula metrics reward
  | .degenerate reason reward => .degenerate formula reason reward
  | .invalid reason reward => .invalid reason reward

end Outcome

structure Miner (α : Type) (periods instruments : Nat) where
  settings : Settings α
  scorer : Scorer α periods instruments

namespace Miner

variable {α : Type} [Scalar α] {periods instruments : Nat}

@[specialize] def create (settings : Settings α) (features : FeatureSet α periods instruments) :
    Result (Miner α periods instruments) := do
  settings.validate
  let v := settings.vocabulary
  features.require v.featureNames
  let scorer ← Scorer.create v settings.reward features
  return ⟨settings, scorer⟩

def vocabulary (m : Miner α periods instruments) : Vocabulary := m.scorer.vocabulary

def features (m : Miner α periods instruments) : FeatureSet α periods instruments :=
  m.scorer.features

def maxLength (m : Miner α periods instruments) : Nat := m.settings.model.maxLength

def invalid (m : Miner α periods instruments) (reason : Rejection) : Outcome α :=
  .invalid reason m.settings.reward.invalidReward

@[specialize] def evaluateProgram (m : Miner α periods instruments) (program : Program) :
    Result (Outcome α) :=
  match program.validate m.vocabulary m.maxLength with
  | .error reason => .ok (m.invalid reason)
  | .ok formula => (m.scorer.assess program).map (Outcome.ofAssessment formula)

/-- The outcome of a formula.  Text with too many names is invalid whether or not it is a formula;
other text that is no formula fails. -/
@[specialize] def evaluate (m : Miner α periods instruments) : FormulaInput → Result (Outcome α)
  | .tokens program => m.evaluateProgram program
  | .text formula =>
    let names := Formula.countNames formula
    if m.maxLength < names then .ok (m.invalid (.tooLong names m.maxLength))
    else
      match Formula.parse m.vocabulary formula with
      | .error fault => .error (.malformedFormula fault)
      | .ok program => m.evaluateProgram program

end Miner

end FactorSearch
