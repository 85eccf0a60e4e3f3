import FactorSearch.Policy.Parameters

/-!
# The Adam optimizer

Running means of the gradients and of their squares, corrected for their start at zero.  A step
moves every parameter against its mean gradient, scaled by the root of its mean square.  Steps are
counted in a signed word of 32 bits, which wraps around.
-/

set_option autoImplicit false

namespace FactorSearch

namespace Policy

structure Adam (α : Type) (s : Shape) where
  learningRate : α
  meanDecay : α
  squareDecay : α
  epsilon : α
  count : Int32
  means : Parameters α s
  squares : Parameters α s

namespace Adam

variable {α : Type} [Scalar α] {s : Shape}

def fresh (learningRate : α) : Adam α s where
  learningRate := learningRate
  meanDecay := 0.9
  squareDecay := 0.999
  epsilon := 1e-8
  count := 0
  means := .zero
  squares := .zero

/-- The number of steps, as long as the count has not wrapped around. -/
def steps (o : Adam α s) : Nat := o.count.toNatClampNeg

@[specialize] def observe (o : Adam α s) (gradients : Parameters α s) : Adam α s :=
  let meanDecay := o.meanDecay
  let squareDecay := o.squareDecay
  { o with
    count := o.count + 1
    means := o.means.zipWith (fun m g => meanDecay * m + (1 - meanDecay) * g) gradients
    squares := o.squares.zipWith (fun v g => squareDecay * v + (1 - squareDecay) * g * g)
      gradients }

@[specialize] def move (o : Adam α s) (parameters : Parameters α s) : Parameters α s :=
  let meanBias := 1 - Scalar.zpower o.meanDecay o.count.toInt
  let squareBias := 1 - Scalar.zpower o.squareDecay o.count.toInt
  let rate := o.learningRate
  let epsilon := o.epsilon
  let means := o.means
  let squares := o.squares
  Parameters.ofFn fun c =>
    parameters.get c -
      rate * (means.get c / meanBias) / (Scalar.sqrt (squares.get c / squareBias) + epsilon)

@[specialize] def step (o : Adam α s) (parameters gradients : Parameters α s) :
    Adam α s × Parameters α s :=
  let next := o.observe gradients
  (next, next.move parameters)

end Adam

end Policy

end FactorSearch
