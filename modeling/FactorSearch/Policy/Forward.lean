import FactorSearch.Policy.Parameters
import FactorSearch.Policy.Softmax

/-!
# The forward pass

From the actions so far and the depth of the stack to a probability for every action.  The inputs
are a start mark and the actions, each embedded together with its position.  The latest input,
together with the depth, asks; attention reads all inputs; a tower of residual layers and an
affine map lead to the scores of the actions.  A `Trace` keeps what the gradient needs.
-/

set_option autoImplicit false

namespace FactorSearch

namespace Policy

/-- What a residual layer was given and what it added. -/
structure LayerTrace (α : Type) (width : Nat) where
  input : Vec α width
  activation : Vec α width

structure Trace (α : Type) (s : Shape) where
  length : Nat
  inputs : Vector Nat (length + 1)
  depth : Nat
  memory : Mat α (length + 1) s.width
  queryInput : Vec α s.width
  query : Vec α s.width
  keys : Mat α (length + 1) s.width
  values : Mat α (length + 1) s.width
  attention : Mat α s.heads (length + 1)
  context : Vec α s.width
  tower : List (LayerTrace α s.width)
  top : Vec α s.width
  mask : Vector Bool s.actions
  probabilities : Vec α s.actions

namespace Trace

variable {α : Type} [Scalar α] {s : Shape}

@[specialize] def logProbability (trace : Trace α s) (action : Nat) : α :=
  Softmax.logWeight trace.probabilities action

@[specialize] def entropy (trace : Trace α s) : α := Softmax.entropy trace.probabilities

end Trace

variable {α : Type} [Scalar α] {s : Shape}

@[specialize] def attentionScale (s : Shape) : α := 1 / Scalar.sqrt (Scalar.ofNat s.headWidth)

@[specialize] def attentionScores {n : Nat} (query : Vec α s.width) (keys : Mat α n s.width) :
    Mat α s.heads n :=
  let scale : α := attentionScale s
  Tensor.tabulate fun h t =>
    (Tensor.sum fun k => (keys.get t).get (s.column h k) * query.get (s.column h k)) * scale

/-- The values of the inputs, weighted for every column by the attention of its head. -/
@[specialize] def attend {n : Nat} (attention : Mat α s.heads n) (values : Mat α n s.width) :
    Vec α s.width :=
  Vector.ofFn fun c => Tensor.sum fun t : Fin n =>
    (attention.get (s.headOf c)).get t * (values.get t).get c

@[specialize] def climb {width : Nat} (x : Vec α width) :
    List (Layer α width) → List (LayerTrace α width) × Vec α width
  | [] => ([], x)
  | layer :: rest =>
    let affine := Tensor.add (Tensor.vecMul x layer.weight) layer.bias
    let activation : Vec α width := Vector.ofFn fun i => Scalar.tanh (affine.get i)
    let (traces, top) := climb (Tensor.add x activation) rest
    (⟨x, activation⟩ :: traces, top)

def inputsOf (s : Shape) (actions : List Nat) : Vector Nat (actions.length + 1) :=
  ⟨(s.start :: actions).toArray, by simp⟩

/-- The forward pass for the action that follows `actions`, among those that the mask allows. -/
@[specialize] def forward (p : Parameters α s) (actions : List Nat) (depth : Nat)
    (allowed : List Bool) : Result (Trace α s) :=
  if s.maxLength < actions.length ∨ s.maxLength + 1 < depth then
    .error (.internal (.decodeRange actions.length depth))
  else if allowed.length ≠ s.actions then
    .error (.internal (.maskLength allowed.length s.actions))
  else
    let inputs := inputsOf s actions
    let memory : Mat α (actions.length + 1) s.width := Vector.ofFn fun t =>
      Tensor.add (Tensor.rowOrZero p.token (inputs.get t)) (Tensor.rowOrZero p.position t.val)
    let queryInput := Tensor.add memory[actions.length] (Tensor.rowOrZero p.depth depth)
    let query := Tensor.vecMul queryInput p.query
    let keys := Tensor.mul memory p.key
    let values := Tensor.mul memory p.value
    let scores := attentionScores query keys
    let attention : Mat α s.heads (actions.length + 1) :=
      Vector.ofFn fun h => Softmax.weights (scores.get h)
    let context := attend attention values
    let bottom := Tensor.add queryInput (Tensor.vecMul context p.mixing)
    let (tower, top) := climb bottom p.tower.toList
    let logits := Tensor.add (Tensor.vecMul top p.outputWeight) p.outputBias
    let mask := Softmax.maskOfList s.actions allowed
    match Softmax.masked logits mask with
    | .error failure => .error failure
    | .ok probabilities =>
      .ok
        { length := actions.length
          inputs := inputs
          depth := depth
          memory := memory
          queryInput := queryInput
          query := query
          keys := keys
          values := values
          attention := attention
          context := context
          tower := tower
          top := top
          mask := mask
          probabilities := probabilities }

end Policy

end FactorSearch
