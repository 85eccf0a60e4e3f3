import FactorSearch.Policy.Adam
import FactorSearch.Policy.Gradient
import FactorSearch.Sampling.Generator
import FactorSearch.Scoring

/-!
# Learning from a batch

An episode is a sampled program with its verdict.  The loss of a batch rewards the probability of
programs that did better than the baseline, and the entropy of the decisions.  An update computes
the gradient of the loss, limits its length, and lets the optimizer take one step; it is left out
when the loss or the gradient is not finite.
-/

set_option autoImplicit false

namespace FactorSearch

namespace Training

structure Episode (α : Type) (s : Policy.Shape) where
  sample : Sampling.Sample α s
  verdict : Assessment α

structure Learner (α : Type) (s : Policy.Shape) where
  parameters : Policy.Parameters α s
  optimizer : Policy.Adam α s

variable {α : Type} [Scalar α] {s : Policy.Shape} {periods instruments : Nat}

@[specialize] def assessDraw (scorer : Scorer α periods instruments) :
    Sampling.Draw → Result (Assessment α)
  | .valid program _ => scorer.assess program
  | .rejected reason => .ok (scorer.invalid reason)

/-- The episodes of samples, up to the first failure. -/
@[specialize] def episodes (scorer : Scorer α periods instruments) :
    List (Sampling.Sample α s) → Result (List (Episode α s))
  | [] => .ok []
  | sample :: rest =>
    match assessDraw scorer sample.draw with
    | .error failure => .error failure
    | .ok verdict =>
      match episodes scorer rest with
      | .error failure => .error failure
      | .ok others => .ok (⟨sample, verdict⟩ :: others)

namespace Episode

def reward (e : Episode α s) : α := e.verdict.reward

end Episode

@[specialize] def batchSize (batch : List (Episode α s)) : α :=
  Scalar.ofNat (Nat.max batch.length 1)

@[specialize] def loss (entropyCoefficient baseline : α) (batch : List (Episode α s)) : α :=
  let size : α := batchSize batch
  batch.foldl (fun total e =>
    total - (e.reward - baseline) * e.sample.logProbability / size
      - entropyCoefficient * e.sample.entropy / size) 0

@[specialize] def gradient (entropyCoefficient baseline : α) (p : Policy.Parameters α s)
    (batch : List (Episode α s)) : Policy.Parameters α s :=
  let size : α := batchSize batch
  let entropyScale := entropyCoefficient / size
  batch.foldl (fun total e =>
    let advantage := (e.reward - baseline) / size
    e.sample.decisions.foldl (fun total decision =>
      Policy.accumulate p total decision.trace
        (Policy.logitGradient decision.trace decision.action advantage entropyScale)) total)
    .zero

@[specialize] def clip (maxNorm : α) (gradients : Policy.Parameters α s) :
    Policy.Parameters α s :=
  let norm := gradients.norm
  if Scalar.lt maxNorm norm then gradients.scale (maxNorm / norm) else gradients

namespace Learner

def fresh (learningRate : α) (parameters : Policy.Parameters α s) : Learner α s :=
  ⟨parameters, .fresh learningRate⟩

@[specialize] def apply (learner : Learner α s) (gradients : Policy.Parameters α s) :
    Learner α s :=
  let (optimizer, parameters) := learner.optimizer.step learner.parameters gradients
  ⟨parameters, optimizer⟩

@[specialize] def update (learner : Learner α s) (settings : TrainingSettings α) (baseline : α)
    (batch : List (Episode α s)) : α × Learner α s :=
  let loss := loss settings.entropyCoefficient baseline batch
  let gradients := gradient settings.entropyCoefficient baseline learner.parameters batch
  if Scalar.isFinite loss && Scalar.isFinite gradients.norm then
    (loss, learner.apply (clip settings.maxGradientNorm gradients))
  else (loss, learner)

end Learner

end Training

end FactorSearch
