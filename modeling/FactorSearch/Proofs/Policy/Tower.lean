import Mathlib
import FactorSearch.Policy.Gradient
import FactorSearch.Proofs.Exact.Tangent

/-!
# Tangents of the tower

A residual layer adds a tangent hyperbolic of an affine image to its input.  Going down a layer
carries weights on its output to weights on its input and leaves the layer's own share behind; the
whole tower follows by induction on the layers, from the first one up.
-/

set_option autoImplicit false

namespace FactorSearch

namespace Policy

variable {width : Nat} {x₀ : ℝ}

/-- A residual layer that depends on a number, with its tangent. -/
structure MovingLayer (width : Nat) (x₀ : ℝ) where
  layer : ℝ → Layer ℝ width
  weight' : Fin width → Fin width → ℝ
  bias' : Fin width → ℝ
  weight_hasTangent : Mat.HasTangent (fun x => (layer x).weight) weight' x₀
  bias_hasTangent : Vec.HasTangent (fun x => (layer x).bias) bias' x₀

namespace MovingLayer

/-- What the layer's own tangent contributes, given its input and the weights on its affine
image. -/
def share (l : MovingLayer width x₀) (input slope : Fin width → ℝ) : ℝ :=
  ∑ i, ∑ j, l.weight' i j * (input i * slope j) + ∑ j, l.bias' j * slope j

end MovingLayer

def activate {α : Type} [Scalar α] (layer : Layer α width) (input : Vec α width) : Vec α width :=
  Vector.ofFn fun i =>
    Scalar.tanh ((Tensor.add (Tensor.vecMul input layer.weight) layer.bias).get i)

def slopeOf {α : Type} [Scalar α] (activation above : Vec α width) : Vec α width :=
  Vector.ofFn fun i => above.get i * (1 - activation.get i * activation.get i)

theorem climb_cons {α : Type} [Scalar α] (input : Vec α width) (layer : Layer α width)
    (rest : List (Layer α width)) :
    climb input (layer :: rest) =
      (⟨input, activate layer input⟩ ::
          (climb (Tensor.add input (activate layer input)) rest).1,
        (climb (Tensor.add input (activate layer input)) rest).2) := rfl

theorem descend_cons {α : Type} [Scalar α] (top : Vec α width) (layer : Layer α width)
    (trace : LayerTrace α width) (rest : List (Layer α width × LayerTrace α width)) :
    descend top ((layer, trace) :: rest) =
      (slopeOf trace.activation (descend top rest).2 :: (descend top rest).1,
        Tensor.add (descend top rest).2
          (Tensor.mulVec layer.weight (slopeOf trace.activation (descend top rest).2))) := rfl

variable {v : ℝ → Vec ℝ width} {v' : Fin width → ℝ}

theorem layer_hasTangent (l : MovingLayer width x₀) (moves : Vec.HasTangent v v' x₀) :
    ∃ y', Vec.HasTangent (fun x => Tensor.add (v x) (activate (l.layer x) (v x))) y' x₀ ∧
      ∀ g : Vec ℝ width, ∑ i, y' i * g.get i =
        ∑ i, v' i * (Tensor.add g (Tensor.mulVec (l.layer x₀).weight
            (slopeOf (activate (l.layer x₀) (v x₀)) g))).get i +
          l.share (v x₀).get (slopeOf (activate (l.layer x₀) (v x₀)) g).get := by
  obtain ⟨image', image, adjoint⟩ := moves.vecMul l.weight_hasTangent
  have active := (image.add l.bias_hasTangent).tanh
  refine ⟨_, moves.add active, ?_⟩
  intro g
  set slope := slopeOf (activate (l.layer x₀) (v x₀)) g
  have sloped : ∀ i, slope.get i = g.get i * (1 - (activate (l.layer x₀) (v x₀)).get i *
      (activate (l.layer x₀) (v x₀)).get i) := by
    intro i
    rw [← Scalar.one_real]
    exact Vec.get_ofFn ..
  have activated : ∀ i, (activate (l.layer x₀) (v x₀)).get i = Real.tanh
      ((Tensor.add (Tensor.vecMul (v x₀) (l.layer x₀).weight) (l.layer x₀).bias).get i) :=
    fun i => Vec.get_ofFn ..
  have above : ∀ i, (v' i + (image' i + l.bias' i) * (1 - Real.tanh ((Tensor.add
      (Tensor.vecMul (v x₀) (l.layer x₀).weight) (l.layer x₀).bias).get i) * Real.tanh ((Tensor.add
      (Tensor.vecMul (v x₀) (l.layer x₀).weight) (l.layer x₀).bias).get i))) * g.get i =
        v' i * g.get i + (image' i * slope.get i + l.bias' i * slope.get i) := by
    intro i
    rw [sloped, activated]
    ring
  rw [Finset.sum_congr rfl fun i _ => above i, Finset.sum_add_distrib, Finset.sum_add_distrib,
    adjoint slope, MovingLayer.share]
  simp only [Tensor.get_add, mul_add, Finset.sum_add_distrib]
  ring

def entryAt (vectors : List (Vec ℝ width)) (index : Nat) (i : Fin width) : ℝ :=
  match vectors[index]? with
  | some vector => vector.get i
  | none => 0

/-- Down the tower, weights on its top become weights on its bottom and a share of every layer. -/
theorem climb_hasTangent {count : Nat} (layers : Fin count → MovingLayer width x₀)
    (moves : Vec.HasTangent v v' x₀) :
    ∃ top', Vec.HasTangent (fun x => (climb (v x) (List.ofFn fun l => (layers l).layer x)).2)
        top' x₀ ∧
      ∀ (g : Vec ℝ width) (traces : List (LayerTrace ℝ width)) (slopes : List (Vec ℝ width))
        (bottom : Vec ℝ width),
        (climb (v x₀) (List.ofFn fun l => (layers l).layer x₀)).1 = traces →
        descend g ((List.ofFn fun l => (layers l).layer x₀).zip traces) = (slopes, bottom) →
        ∑ i, top' i * g.get i = ∑ i, v' i * bottom.get i +
          ∑ l, (layers l).share (entryAt (traces.map LayerTrace.input) l.val)
            (entryAt slopes l.val) := by
  -- the first layer is the last one that weights pass on their way down
  induction count generalizing v v' with
  | zero =>
    refine ⟨v', moves, ?_⟩
    rintro g traces slopes bottom rfl descended
    cases descended
    simp
  | succ count ih =>
    obtain ⟨y', output, adjoint⟩ := layer_hasTangent (layers 0) moves
    obtain ⟨top', top, below⟩ := ih (fun l => layers l.succ) output
    refine ⟨top', ?_, ?_⟩
    · simp only [List.ofFn_succ, climb_cons]
      exact top
    · rintro g traces slopes bottom rfl descended
      simp only [List.ofFn_succ, climb_cons, List.zip_cons_cons, descend_cons] at descended
      cases descended
      rw [below g _ _ _ rfl rfl, adjoint, Fin.sum_univ_succ]
      simp only [List.ofFn_succ, climb_cons, List.map_cons]
      rw [add_assoc]
      rfl

end Policy

end FactorSearch
