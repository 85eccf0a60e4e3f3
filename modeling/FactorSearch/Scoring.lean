import FactorSearch.Backtest
import FactorSearch.Evaluation.StackMachine

/-!
# Scoring programs

A scorer runs programs on one feature set and backtests their factors.  A program ends as scored,
as invalid, or as degenerate; the last two are paid a configured penalty.
-/

set_option autoImplicit false

namespace FactorSearch

inductive Assessment (α : Type) where
  | scored (metrics : Metrics α) (reward : α)
  | invalid (reason : Rejection) (reward : α)
  | degenerate (reason : Degeneracy α) (reward : α)

namespace Assessment

variable {α : Type}

def reward : Assessment α → α
  | scored _ reward => reward
  | invalid _ reward => reward
  | degenerate _ reward => reward

def metrics? : Assessment α → Option (Metrics α)
  | scored metrics _ => some metrics
  | _ => none

def isPenalized (a : Assessment α) : Bool := a.metrics?.isNone

end Assessment

structure Scorer (α : Type) (periods instruments : Nat) where
  vocabulary : Vocabulary
  reward : RewardSettings α
  features : FeatureSet α periods instruments
  forward : Panel α periods instruments

namespace Scorer

variable {α : Type} [Scalar α] {periods instruments : Nat}

@[specialize] def create (v : Vocabulary) (reward : RewardSettings α)
    (features : FeatureSet α periods instruments) : Result (Scorer α periods instruments) := do
  let forward ← features.forwardReturns
  return ⟨v, reward, features, forward⟩

def invalid (s : Scorer α periods instruments) (reason : Rejection) : Assessment α :=
  .invalid reason s.reward.invalidReward

@[specialize] def assessFactor (s : Scorer α periods instruments)
    (factor : Panel α periods instruments) : Assessment α :=
  match Degeneracy.classify? s.reward.limits factor with
  | some reason => .degenerate reason s.reward.degenerateReward
  | none =>
    let metrics := (Backtest.run s.reward factor s.forward).metrics
    match Backtest.score? s.reward metrics with
    | some reward => .scored metrics reward
    | none => .degenerate .nonFinite s.reward.degenerateReward

@[specialize] def assess (s : Scorer α periods instruments) (program : Program) :
    Result (Assessment α) :=
  match StackMachine.run s.vocabulary s.features program with
  | .error failure => .error failure
  | .ok factor => .ok (s.assessFactor factor)

end Scorer

end FactorSearch
