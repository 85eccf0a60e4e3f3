import FactorSearch.Policy.Parameters
import FactorSearch.Sampling.WordStream

/-!
# Initial parameters

Embeddings start small and bell-shaped, matrices uniform within a bound that keeps the size of
what passes through them, biases at zero.  The output matrix is scaled down, so that the initial
policy is nearly uniform.
-/

set_option autoImplicit false

namespace FactorSearch

namespace Training

variable {α : Type} [Scalar α]

@[specialize] def spread (rows columns : Nat) (word : UInt64) : α :=
  (2 * WordStream.unit word - 1) * Scalar.sqrt (6 / Scalar.ofNat (rows + columns))

@[specialize] def initialAt (s : Policy.Shape) (word : UInt64) : Policy.Coordinate s → α
  | .token _ _ => 0.1 * WordStream.bell word
  | .position _ _ => 0.1 * WordStream.bell word
  | .depth _ _ => 0.1 * WordStream.bell word
  | .layerBias _ _ => 0
  | .outputBias _ => 0
  | .outputWeight _ _ => 0.01 * spread s.width s.actions word
  | .query _ _ => spread s.width s.width word
  | .key _ _ => spread s.width s.width word
  | .value _ _ => spread s.width s.width word
  | .mixing _ _ => spread s.width s.width word
  | .layerWeight _ _ _ => spread s.width s.width word

@[specialize] def initialParameters (s : Policy.Shape) (seed : UInt64) : Policy.Parameters α s :=
  let stream := WordStream.ofSeed seed
  Policy.Parameters.ofFn fun c => initialAt s (stream.word (c.tensor * Nat.pow 2 32 + c.offset)) c

end Training

end FactorSearch
