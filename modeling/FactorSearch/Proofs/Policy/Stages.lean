import FactorSearch.Policy.Gradient

/-!
# Stages of the two passes

The intermediate results of the forward pass and of the backward pass, each under a name.  The
forward pass gives a trace of its stages; the backward pass is made of its own.
-/

set_option autoImplicit false

namespace FactorSearch

namespace Policy

variable {s : Shape}

/-! ## Stages of the forward pass -/

section Stages

variable {α : Type} [Scalar α] (p : Parameters α s) (actions : List Nat) (depth : Nat)

def memoryOf : Mat α (actions.length + 1) s.width :=
  Vector.ofFn fun t =>
    Tensor.add (Tensor.rowOrZero p.token ((inputsOf s actions).get t))
      (Tensor.rowOrZero p.position t.val)

def queryInputOf : Vec α s.width :=
  Tensor.add ((memoryOf p actions).get (Fin.last actions.length))
    (Tensor.rowOrZero p.depth depth)

def queryOf : Vec α s.width := Tensor.vecMul (queryInputOf p actions depth) p.query

def keysOf : Mat α (actions.length + 1) s.width := Tensor.mul (memoryOf p actions) p.key

def valuesOf : Mat α (actions.length + 1) s.width := Tensor.mul (memoryOf p actions) p.value

def attentionOf : Mat α s.heads (actions.length + 1) :=
  Vector.ofFn fun h =>
    Softmax.weights ((attentionScores (queryOf p actions depth) (keysOf p actions)).get h)

def contextOf : Vec α s.width := attend (attentionOf p actions depth) (valuesOf p actions)

def bottomOf : Vec α s.width :=
  Tensor.add (queryInputOf p actions depth) (Tensor.vecMul (contextOf p actions depth) p.mixing)

def towerOf : List (LayerTrace α s.width) × Vec α s.width :=
  climb (bottomOf p actions depth) p.tower.toList

def logitsOf : Vec α s.actions :=
  Tensor.add (Tensor.vecMul (towerOf p actions depth).2 p.outputWeight) p.outputBias

def traceOf (allowed : List Bool) (probabilities : Vec α s.actions) : Trace α s where
  length := actions.length
  inputs := inputsOf s actions
  depth := depth
  memory := memoryOf p actions
  queryInput := queryInputOf p actions depth
  query := queryOf p actions depth
  keys := keysOf p actions
  values := valuesOf p actions
  attention := attentionOf p actions depth
  context := contextOf p actions depth
  tower := (towerOf p actions depth).1
  top := (towerOf p actions depth).2
  mask := Softmax.maskOfList s.actions allowed
  probabilities := probabilities

/-- Within range the forward pass weighs the scores of its stages and gives their trace. -/
theorem forward_in_range (allowed : List Bool) (length : actions.length ≤ s.maxLength)
    (shallow : depth ≤ s.maxLength + 1) (entries : allowed.length = s.actions) :
    forward p actions depth allowed =
      (Softmax.masked (logitsOf p actions depth) (Softmax.maskOfList s.actions allowed)).map
        (traceOf p actions depth allowed) := by
  have inside : ¬ (s.maxLength < actions.length ∨ s.maxLength + 1 < depth) := by omega
  rw [forward, if_neg inside, if_neg (not_not_intro entries)]
  dsimp only
  split
  · rename_i failure refused
    exact (congrArg (Except.map (traceOf p actions depth allowed)) refused).symm
  · rename_i probabilities weighed
    exact (congrArg (Except.map (traceOf p actions depth allowed)) weighed).symm

end Stages

/-! ## Stages of the backward pass -/

section Gradients

variable {α : Type} [Scalar α] {n : Nat}

/-- Weights on the attention of every head from weights on the context. -/
def attentionGradient (values : Mat α n s.width) (context : Vec α s.width) : Mat α s.heads n :=
  Tensor.tabulate fun h t =>
    Tensor.sum fun k => (values.get t).get (s.column h k) * context.get (s.column h k)

def valueGradient (attention : Mat α s.heads n) (context : Vec α s.width) : Mat α n s.width :=
  Tensor.tabulate fun t c => (attention.get (s.headOf c)).get t * context.get c

def meanGradient (attention weights : Mat α s.heads n) : Vec α s.heads :=
  Vector.ofFn fun h => Tensor.dot (attention.get h) (weights.get h)

def scoreGradient (attention weights : Mat α s.heads n) : Mat α s.heads n :=
  Tensor.tabulate fun h t =>
    ((weights.get h).get t - (meanGradient attention weights).get h) * (attention.get h).get t *
      attentionScale s

def queryGradient (keys : Mat α n s.width) (scores : Mat α s.heads n) : Vec α s.width :=
  Vector.ofFn fun c => Tensor.sum fun t : Fin n =>
    (keys.get t).get c * (scores.get (s.headOf c)).get t

def keyGradient (query : Vec α s.width) (scores : Mat α s.heads n) : Mat α n s.width :=
  Tensor.tabulate fun t c => (scores.get (s.headOf c)).get t * query.get c

/-- Weights on the memory from weights on keys and values, and those on the query input for the
latest input. -/
def memoryGradient (p : Parameters α s) (keys values : Mat α (n + 1) s.width)
    (queryInput : Vec α s.width) : Mat α (n + 1) s.width :=
  Tensor.tabulate fun t c =>
    let read := ((Tensor.mulTranspose keys p.key).get t).get c +
      ((Tensor.mulTranspose values p.value).get t).get c
    if t.val = n then read + queryInput.get c else read

variable (p : Parameters α s) (trace : Trace α s) (logits : Vec α s.actions)

def descentOf : List (Vec α s.width) × Vec α s.width :=
  descend (Tensor.mulVec p.outputWeight logits) (p.tower.toList.zip trace.tower)

end Gradients

end Policy

end FactorSearch
