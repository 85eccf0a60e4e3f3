import FactorSearch.Policy.Forward

/-!
# Gradients

`logitGradient` is the derivative of a step's share of the loss with respect to the scores of the
actions.  `Backward` carries a derivative with respect to the scores back through a trace, and
`accumulate` adds the resulting derivative with respect to every parameter.
-/

set_option autoImplicit false

namespace FactorSearch

namespace Policy

variable {α : Type} [Scalar α] {s : Shape}

/-- The derivative of `advantage * (-ln p_action) - entropyScale * entropy` with respect to the
scores; zero for actions that are not allowed. -/
@[specialize] def logitGradient (trace : Trace α s) (action : Nat) (advantage entropyScale : α) :
    Vec α s.actions :=
  let entropy := trace.entropy
  Vector.ofFn fun i =>
    if trace.mask.get i then
      let p := trace.probabilities.get i
      let pull := advantage * (p - if i.val = action then 1 else 0)
      if Scalar.lt 0 p then pull + entropyScale * p * (Scalar.log p + entropy) else pull
    else 0

/-- The derivatives with respect to what each residual layer computes before its activation, and
with respect to the vector below the layers. -/
@[specialize] def descend {width : Nat} (top : Vec α width) :
    List (Layer α width × LayerTrace α width) → List (Vec α width) × Vec α width
  | [] => ([], top)
  | (layer, trace) :: rest =>
    let (slopes, above) := descend top rest
    let slope : Vec α width :=
      Vector.ofFn fun i => above.get i * (1 - trace.activation.get i * trace.activation.get i)
    (slope :: slopes, Tensor.add above (Tensor.mulVec layer.weight slope))

/-- The derivatives with respect to the values of a trace, from the scores of the actions down to
the embedded inputs. -/
structure Backward (α : Type) (s : Shape) (trace : Trace α s) where
  logits : Vec α s.actions
  slopes : Array (Vec α s.width)
  bottom : Vec α s.width
  query : Vec α s.width
  queryInput : Vec α s.width
  keyWeight : Mat α s.width s.width
  valueWeight : Mat α s.width s.width
  memory : Mat α (trace.length + 1) s.width

@[specialize] def backward (p : Parameters α s) (trace : Trace α s) (logits : Vec α s.actions) :
    Backward α s trace :=
  let scale : α := attentionScale s
  let top := Tensor.mulVec p.outputWeight logits
  let (slopes, bottom) := descend top (p.tower.toList.zip trace.tower)
  let context := Tensor.mulVec p.mixing bottom
  let attention : Mat α s.heads (trace.length + 1) := Tensor.tabulate fun h t =>
    Tensor.sum fun k => (trace.values.get t).get (s.column h k) * context.get (s.column h k)
  let means : Vec α s.heads := Vector.ofFn fun h =>
    Tensor.dot (trace.attention.get h) (attention.get h)
  let scores : Mat α s.heads (trace.length + 1) := Tensor.tabulate fun h t =>
    ((attention.get h).get t - means.get h) * (trace.attention.get h).get t * scale
  let query : Vec α s.width := Vector.ofFn fun c =>
    Tensor.sum fun t : Fin (trace.length + 1) =>
      (trace.keys.get t).get c * (scores.get (s.headOf c)).get t
  let keys : Mat α (trace.length + 1) s.width := Tensor.tabulate fun t c =>
    (scores.get (s.headOf c)).get t * trace.query.get c
  let values : Mat α (trace.length + 1) s.width := Tensor.tabulate fun t c =>
    (trace.attention.get (s.headOf c)).get t * context.get c
  let queryInput := Tensor.add bottom (Tensor.mulVec p.query query)
  let throughKeys := Tensor.mulTranspose keys p.key
  let throughValues := Tensor.mulTranspose values p.value
  { logits := logits
    slopes := slopes.toArray
    bottom := bottom
    query := query
    queryInput := queryInput
    keyWeight := Tensor.transposeMul trace.memory keys
    valueWeight := Tensor.transposeMul trace.memory values
    memory := Tensor.tabulate fun t c =>
      let read := (throughKeys.get t).get c + (throughValues.get t).get c
      if t.val = trace.length then read + queryInput.get c else read }

namespace Backward

@[inline] def slope {trace : Trace α s} (b : Backward α s trace) (layer : Fin s.layers)
    (column : Fin s.width) : α :=
  match b.slopes[layer.val]? with
  | some slope => slope.get column
  | none => 0

@[inline] def layerInput (inputs : Array (Vec α s.width)) (layer : Fin s.layers)
    (row : Fin s.width) : α :=
  match inputs[layer.val]? with
  | some input => input.get row
  | none => 0

@[inline] def derivative {trace : Trace α s} (b : Backward α s trace)
    (layerInputs : Array (Vec α s.width)) : Coordinate s → α
  | .token i j =>
    Tensor.sum fun t : Fin (trace.length + 1) =>
      if trace.inputs.get t = i.val then (b.memory.get t).get j else 0
  | .position i j => if h : i.val < trace.length + 1 then (b.memory.get ⟨i.val, h⟩).get j else 0
  | .depth i j => if i.val = trace.depth then b.queryInput.get j else 0
  | .query i j => trace.queryInput.get i * b.query.get j
  | .key i j => (b.keyWeight.get i).get j
  | .value i j => (b.valueWeight.get i).get j
  | .mixing i j => trace.context.get i * b.bottom.get j
  | .layerWeight l i j => layerInput layerInputs l i * b.slope l j
  | .layerBias l j => b.slope l j
  | .outputWeight i a => trace.top.get i * b.logits.get a
  | .outputBias a => b.logits.get a

end Backward

@[specialize] def accumulate (p : Parameters α s) (gradients : Parameters α s)
    (trace : Trace α s) (logits : Vec α s.actions) : Parameters α s :=
  let b := backward p trace logits
  let layerInputs := (trace.tower.map LayerTrace.input).toArray
  Parameters.ofFn fun c => gradients.get c + b.derivative layerInputs c

end Policy

end FactorSearch
