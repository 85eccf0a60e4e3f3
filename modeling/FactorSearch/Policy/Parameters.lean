import FactorSearch.Policy.Shape
import FactorSearch.Tensor

/-!
# Parameters of a policy network

A number for every coordinate of a shape.  The same layout holds weights, gradients and the
moments of the optimizer.  `ofFn` builds parameters from their coordinates and `get` reads them;
everything else is defined through these two.
-/

set_option autoImplicit false

namespace FactorSearch

namespace Policy

structure Layer (α : Type) (width : Nat) where
  weight : Mat α width width
  bias : Vec α width

structure Parameters (α : Type) (s : Shape) where
  token : Mat α s.actions s.width
  position : Mat α (s.maxLength + 1) s.width
  depth : Mat α (s.maxLength + 2) s.width
  query : Mat α s.width s.width
  key : Mat α s.width s.width
  value : Mat α s.width s.width
  mixing : Mat α s.width s.width
  tower : Vector (Layer α s.width) s.layers
  outputWeight : Mat α s.width s.actions
  outputBias : Vec α s.actions

namespace Parameters

variable {α β γ : Type} {s : Shape}

@[inline] def get (p : Parameters α s) : Coordinate s → α
  | .token i j => (p.token.get i).get j
  | .position i j => (p.position.get i).get j
  | .depth i j => (p.depth.get i).get j
  | .query i j => (p.query.get i).get j
  | .key i j => (p.key.get i).get j
  | .value i j => (p.value.get i).get j
  | .mixing i j => (p.mixing.get i).get j
  | .layerWeight l i j => ((p.tower.get l).weight.get i).get j
  | .layerBias l j => (p.tower.get l).bias.get j
  | .outputWeight i a => (p.outputWeight.get i).get a
  | .outputBias a => p.outputBias.get a

@[inline] def ofFn (f : Coordinate s → α) : Parameters α s where
  token := Tensor.tabulate fun i j => f (.token i j)
  position := Tensor.tabulate fun i j => f (.position i j)
  depth := Tensor.tabulate fun i j => f (.depth i j)
  query := Tensor.tabulate fun i j => f (.query i j)
  key := Tensor.tabulate fun i j => f (.key i j)
  value := Tensor.tabulate fun i j => f (.value i j)
  mixing := Tensor.tabulate fun i j => f (.mixing i j)
  tower := Vector.ofFn fun l =>
    { weight := Tensor.tabulate fun i j => f (.layerWeight l i j)
      bias := Vector.ofFn fun j => f (.layerBias l j) }
  outputWeight := Tensor.tabulate fun i a => f (.outputWeight i a)
  outputBias := Vector.ofFn fun a => f (.outputBias a)

@[simp] theorem get_ofFn (f : Coordinate s → α) (c : Coordinate s) : (ofFn f).get c = f c := by
  cases c <;> simp [get, ofFn, Tensor.tabulate]

@[inline] def zipWith (f : α → β → γ) (p : Parameters α s) (q : Parameters β s) :
    Parameters γ s :=
  ofFn fun c => f (p.get c) (q.get c)

structure Block (α : Type) where
  extents : List Nat
  values : List α

def matrixBlock {m n : Nat} (a : Mat α m n) : Block α :=
  ⟨[m, n], (a.toList.map Vector.toList).flatten⟩

def vectorBlock {n : Nat} (x : Vec α n) : Block α := ⟨[n], x.toList⟩

def blocks (p : Parameters α s) : List (Block α) :=
  [matrixBlock p.token, matrixBlock p.position, matrixBlock p.depth, matrixBlock p.query,
      matrixBlock p.key, matrixBlock p.value, matrixBlock p.mixing] ++
    p.tower.toList.flatMap (fun layer => [matrixBlock layer.weight, vectorBlock layer.bias]) ++
    [matrixBlock p.outputWeight, vectorBlock p.outputBias]

variable [Scalar α]

def zero : Parameters α s := ofFn fun _ => 0

@[specialize] def scale (p : Parameters α s) (factor : α) : Parameters α s :=
  ofFn fun c => p.get c * factor

/-- The Euclidean length of all numbers together, summed tensor by tensor. -/
@[specialize] def norm (p : Parameters α s) : α :=
  Scalar.sqrt (Scalar.total (p.blocks.map fun b => Scalar.total (b.values.map Scalar.square)))

def isFinite (p : Parameters α s) : Bool :=
  p.blocks.all fun b => b.values.all Scalar.isFinite

end Parameters

end Policy

end FactorSearch
