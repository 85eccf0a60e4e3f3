import Mathlib
import FactorSearch.Proofs.Policy.Attention
import FactorSearch.Proofs.Policy.Stages
import FactorSearch.Proofs.Policy.Tower

/-!
# Backpropagation

Parameters that depend on a number, and what that makes of the scores of the actions.  Weights on
the scores, carried back through the trace, weigh the rate of every parameter by its derivative.
-/

set_option autoImplicit false

namespace FactorSearch

namespace Policy

variable {s : Shape} {x₀ : ℝ}

theorem get_memoryGradient {n : Nat} (p : Parameters ℝ s) (keys values : Mat ℝ (n + 1) s.width)
    (queryInput : Vec ℝ s.width) (t : Fin (n + 1)) (c : Fin s.width) :
    ((memoryGradient p keys values queryInput).get t).get c =
      ((Tensor.mulTranspose keys p.key).get t).get c +
        ((Tensor.mulTranspose values p.value).get t).get c +
        if t.val = n then queryInput.get c else 0 := by
  simp only [memoryGradient, Tensor.tabulate_apply]
  split
  · rfl
  · rw [add_zero]

/-! ## Sums over all coordinates -/

namespace Coordinate

/-- The sum of a function of the coordinates below the tower, tensor by tensor. -/
def lowerTotal (f : Coordinate s → ℝ) : ℝ :=
  ∑ i, ∑ j, f (.token i j) + ∑ i, ∑ j, f (.position i j) + ∑ i, ∑ j, f (.depth i j) +
    ∑ i, ∑ j, f (.query i j) + ∑ i, ∑ j, f (.key i j) + ∑ i, ∑ j, f (.value i j) +
    ∑ i, ∑ j, f (.mixing i j)

def total (f : Coordinate s → ℝ) : ℝ :=
  lowerTotal f + ∑ l, (∑ i, ∑ j, f (.layerWeight l i j) + ∑ j, f (.layerBias l j)) +
    ∑ i, ∑ a, f (.outputWeight i a) + ∑ a, f (.outputBias a)

theorem total_single (c : Coordinate s) (f : Coordinate s → ℝ) :
    total (fun d => (if d = c then 1 else 0) * f d) = f c := by
  cases c <;> simp [total, lowerTotal, ite_and]

end Coordinate

structure MovingParameters (s : Shape) (x₀ : ℝ) where
  parameters : ℝ → Parameters ℝ s
  rate : Coordinate s → ℝ
  moves : ∀ c, HasDerivAt (fun x => (parameters x).get c) (rate c) x₀

namespace MovingParameters

variable (P : MovingParameters s x₀)

def here : Parameters ℝ s := P.parameters x₀

theorem layerWeight_hasTangent (l : Fin s.layers) :
    Mat.HasTangent (fun x => ((P.parameters x).tower.get l).weight)
      (fun i j => P.rate (.layerWeight l i j)) x₀ :=
  fun i j => P.moves (.layerWeight l i j)

theorem layerBias_hasTangent (l : Fin s.layers) :
    Vec.HasTangent (fun x => ((P.parameters x).tower.get l).bias)
      (fun j => P.rate (.layerBias l j)) x₀ :=
  fun j => P.moves (.layerBias l j)

def layer (l : Fin s.layers) : MovingLayer s.width x₀ where
  layer x := (P.parameters x).tower.get l
  weight' i j := P.rate (.layerWeight l i j)
  bias' j := P.rate (.layerBias l j)
  weight_hasTangent := P.layerWeight_hasTangent l
  bias_hasTangent := P.layerBias_hasTangent l

theorem tower_toList (x : ℝ) :
    (P.parameters x).tower.toList = List.ofFn fun l => (P.layer l).layer x := by
  apply List.ext_getElem
  · rw [Vector.length_toList, List.length_ofFn]
  · intro i _ _
    rw [Vector.getElem_toList, List.getElem_ofFn]
    rfl

/-! ## The passes -/

variable (actions : List Nat) (depth : Nat)

theorem memory_hasTangent :
    ∃ memory', Mat.HasTangent (fun x => memoryOf (P.parameters x) actions) memory' x₀ ∧
      ∀ g : Fin (actions.length + 1) → Fin s.width → ℝ, ∑ t, ∑ c, memory' t c * g t c =
        ∑ i, ∑ c, P.rate (.token i c) *
            ∑ t, (if (inputsOf s actions).get t = i.val then g t c else 0) +
          ∑ i, ∑ c, P.rate (.position i c) * ∑ t, if t.val = i.val then g t c else 0 := by
  have tokens : Mat.HasTangent (fun x => (P.parameters x).token)
      (fun i c => P.rate (.token i c)) x₀ := fun i c => P.moves (.token i c)
  have positions : Mat.HasTangent (fun x => (P.parameters x).position)
      (fun i c => P.rate (.position i c)) x₀ := fun i c => P.moves (.position i c)
  obtain ⟨token', token, tokenAdjoint⟩ := tokens.rowsOrZero (inputsOf s actions).get
  obtain ⟨position', position, positionAdjoint⟩ :=
    positions.rowsOrZero fun t : Fin (actions.length + 1) => t.val
  refine ⟨fun t c => token' t c + position' t c, ?_, ?_⟩
  · intro t
    simp only [memoryOf, Vec.get_ofFn]
    exact (token t).add (position t)
  · intro g
    simp only [add_mul, Finset.sum_add_distrib, tokenAdjoint, positionAdjoint]

theorem queryInput_hasTangent {memory' : Fin (actions.length + 1) → Fin s.width → ℝ}
    (memory : Mat.HasTangent (fun x => memoryOf (P.parameters x) actions) memory' x₀) :
    ∃ queryInput',
      Vec.HasTangent (fun x => queryInputOf (P.parameters x) actions depth) queryInput' x₀ ∧
      ∀ g : Fin s.width → ℝ, ∑ c, queryInput' c * g c =
        ∑ t, ∑ c, memory' t c * (if t.val = actions.length then g c else 0) +
          ∑ i, ∑ c, P.rate (.depth i c) * if i.val = depth then g c else 0 := by
  have depths : Mat.HasTangent (fun x => (P.parameters x).depth)
      (fun i c => P.rate (.depth i c)) x₀ := fun i c => P.moves (.depth i c)
  obtain ⟨depth', row, adjoint⟩ := depths.rowOrZero depth
  refine ⟨_, (memory (Fin.last _)).add row, ?_⟩
  intro g
  simp only [add_mul, Finset.sum_add_distrib, adjoint]
  rw [Fintype.sum_eq_single (Fin.last actions.length)]
  · simp only [Fin.val_last, if_true]
  · intro t other
    have differs : t.val ≠ actions.length := fun same => other (Fin.ext same)
    simp only [differs, if_false, mul_zero, Finset.sum_const_zero]

section Attention

variable {memory' : Fin (actions.length + 1) → Fin s.width → ℝ}

theorem keys_hasTangent
    (memory : Mat.HasTangent (fun x => memoryOf (P.parameters x) actions) memory' x₀) :
    ∃ keys', Mat.HasTangent (fun x => keysOf (P.parameters x) actions) keys' x₀ ∧
      ∀ g : Mat ℝ (actions.length + 1) s.width, ∑ t, ∑ c, keys' t c * (g.get t).get c =
        ∑ t, ∑ c, memory' t c * ((Tensor.mulTranspose g P.here.key).get t).get c +
          ∑ i, ∑ j, P.rate (.key i j) *
            ((Tensor.transposeMul (memoryOf P.here actions) g).get i).get j :=
  memory.mul fun i j => P.moves (.key i j)

theorem values_hasTangent
    (memory : Mat.HasTangent (fun x => memoryOf (P.parameters x) actions) memory' x₀) :
    ∃ values', Mat.HasTangent (fun x => valuesOf (P.parameters x) actions) values' x₀ ∧
      ∀ g : Mat ℝ (actions.length + 1) s.width, ∑ t, ∑ c, values' t c * (g.get t).get c =
        ∑ t, ∑ c, memory' t c * ((Tensor.mulTranspose g P.here.value).get t).get c +
          ∑ i, ∑ j, P.rate (.value i j) *
            ((Tensor.transposeMul (memoryOf P.here actions) g).get i).get j :=
  memory.mul fun i j => P.moves (.value i j)

theorem query_hasTangent {queryInput' : Fin s.width → ℝ}
    (queryInput :
      Vec.HasTangent (fun x => queryInputOf (P.parameters x) actions depth) queryInput' x₀) :
    ∃ query', Vec.HasTangent (fun x => queryOf (P.parameters x) actions depth) query' x₀ ∧
      ∀ g : Vec ℝ s.width, ∑ c, query' c * g.get c =
        ∑ c, queryInput' c * (Tensor.mulVec P.here.query g).get c +
          ∑ i, ∑ j, P.rate (.query i j) *
            ((queryInputOf P.here actions depth).get i * g.get j) :=
  queryInput.vecMul fun i j => P.moves (.query i j)

theorem context_hasTangent {query' : Fin s.width → ℝ}
    {keys' values' : Fin (actions.length + 1) → Fin s.width → ℝ}
    (query : Vec.HasTangent (fun x => queryOf (P.parameters x) actions depth) query' x₀)
    (keys : Mat.HasTangent (fun x => keysOf (P.parameters x) actions) keys' x₀)
    (values : Mat.HasTangent (fun x => valuesOf (P.parameters x) actions) values' x₀) :
    ∃ context', Vec.HasTangent (fun x => contextOf (P.parameters x) actions depth) context' x₀ ∧
      ∀ (g : Vec ℝ s.width) (scores : Mat ℝ s.heads (actions.length + 1)),
        scoreGradient (attentionOf P.here actions depth)
          (attentionGradient (valuesOf P.here actions) g) = scores →
        ∑ c, context' c * g.get c =
          ∑ t, ∑ c, keys' t c *
              ((keyGradient (queryOf P.here actions depth) scores).get t).get c +
            ∑ c, query' c * (queryGradient (keysOf P.here actions) scores).get c +
            ∑ t, ∑ c, values' t c *
              ((valueGradient (attentionOf P.here actions depth) g).get t).get c := by
  have weighed : ∀ x h, (attentionOf (P.parameters x) actions depth).get h = Softmax.weights
      ((attentionScores (queryOf (P.parameters x) actions depth)
        (keysOf (P.parameters x) actions)).get h) := fun x h => Vec.get_ofFn ..
  obtain ⟨attention', attention, attentionAdjoint⟩ :=
    attention_hasTangent (Nat.succ_pos _) weighed query keys
  obtain ⟨context', context, contextAdjoint⟩ := attend_hasTangent attention values
  refine ⟨context', context, ?_⟩
  rintro g scores rfl
  rw [contextAdjoint, attentionAdjoint]
  rfl

end Attention

/-- Weights on what enters the tower go to everything below it: back through the context and the
query input to the memory, and from there to the embeddings. -/
theorem bottom_hasTangent :
    ∃ bottom', Vec.HasTangent (fun x => bottomOf (P.parameters x) actions depth) bottom' x₀ ∧
      ∀ (g context queryInput : Vec ℝ s.width) (scores : Mat ℝ s.heads (actions.length + 1))
        (memory : Mat ℝ (actions.length + 1) s.width),
        Tensor.mulVec P.here.mixing g = context →
        scoreGradient (attentionOf P.here actions depth)
          (attentionGradient (valuesOf P.here actions) context) = scores →
        Tensor.add g (Tensor.mulVec P.here.query
          (queryGradient (keysOf P.here actions) scores)) = queryInput →
        memoryGradient P.here (keyGradient (queryOf P.here actions depth) scores)
          (valueGradient (attentionOf P.here actions depth) context) queryInput = memory →
        ∑ c, bottom' c * g.get c =
          ∑ i, ∑ c, P.rate (.token i c) *
              ∑ t, (if (inputsOf s actions).get t = i.val then (memory.get t).get c else 0) +
            ∑ i, ∑ c, P.rate (.position i c) *
              ∑ t, (if t.val = i.val then (memory.get t).get c else 0) +
            ∑ i, ∑ c, P.rate (.depth i c) * (if i.val = depth then queryInput.get c else 0) +
            ∑ i, ∑ j, P.rate (.query i j) * ((queryInputOf P.here actions depth).get i *
              (queryGradient (keysOf P.here actions) scores).get j) +
            ∑ i, ∑ j, P.rate (.key i j) * ((Tensor.transposeMul (memoryOf P.here actions)
              (keyGradient (queryOf P.here actions depth) scores)).get i).get j +
            ∑ i, ∑ j, P.rate (.value i j) * ((Tensor.transposeMul (memoryOf P.here actions)
              (valueGradient (attentionOf P.here actions depth) context)).get i).get j +
            ∑ i, ∑ j, P.rate (.mixing i j) *
              ((contextOf P.here actions depth).get i * g.get j) := by
  obtain ⟨memory', memoryMoves, memoryAdjoint⟩ := P.memory_hasTangent actions
  obtain ⟨queryInput', queryInputMoves, queryInputAdjoint⟩ :=
    P.queryInput_hasTangent actions depth memoryMoves
  obtain ⟨query', query, queryAdjoint⟩ := P.query_hasTangent actions depth queryInputMoves
  obtain ⟨keys', keys, keyAdjoint⟩ := P.keys_hasTangent actions memoryMoves
  obtain ⟨values', values, valueAdjoint⟩ := P.values_hasTangent actions memoryMoves
  obtain ⟨context', contextMoves, contextAdjoint⟩ :=
    P.context_hasTangent actions depth query keys values
  obtain ⟨mixed', mixed, mixedAdjoint⟩ := contextMoves.vecMul fun i j => P.moves (.mixing i j)
  refine ⟨_, queryInputMoves.add mixed, ?_⟩
  intro g context queryInput scores memory contextual scored asked remembered
  -- the query input feeds the residual path and the query
  have inQueryInput : ∑ c, queryInput' c * queryInput.get c = ∑ c, queryInput' c * g.get c +
      ∑ c, queryInput' c * (Tensor.mulVec P.here.query
        (queryGradient (keysOf P.here actions) scores)).get c := by
    simp only [← asked, Tensor.get_add, mul_add, Finset.sum_add_distrib]
  -- the memory feeds keys and values, and its last row the query input
  have inMemory : ∑ t, ∑ c, memory' t c * (memory.get t).get c =
      ∑ t, ∑ c, memory' t c * ((Tensor.mulTranspose
          (keyGradient (queryOf P.here actions depth) scores) P.here.key).get t).get c +
        ∑ t, ∑ c, memory' t c * ((Tensor.mulTranspose
          (valueGradient (attentionOf P.here actions depth) context) P.here.value).get t).get c +
        ∑ t, ∑ c, memory' t c * (if t.val = actions.length then queryInput.get c else 0) := by
    simp only [← remembered, get_memoryGradient, mul_add, Finset.sum_add_distrib]
  have mixedSum : ∑ c, mixed' c * g.get c = ∑ c, context' c * context.get c +
      ∑ i, ∑ j, P.rate (.mixing i j) * ((contextOf P.here actions depth).get i * g.get j) := by
    rw [← contextual]
    exact mixedAdjoint g
  have fromMemory := memoryAdjoint fun t c => (memory.get t).get c
  have fromQueryInput := queryInputAdjoint queryInput.get
  rw [contextAdjoint context scores scored, keyAdjoint, queryAdjoint, valueAdjoint] at mixedSum
  simp only [add_mul, Finset.sum_add_distrib]
  linarith only [inQueryInput, inMemory, mixedSum, fromMemory, fromQueryInput]

end MovingParameters

/-! ## Derivatives with respect to the parameters -/

namespace Backward

variable {trace : Trace ℝ s} (b : Backward ℝ s trace) (inputs : Array (Vec ℝ s.width))

theorem derivative_token (i : Fin s.actions) (j : Fin s.width) :
    b.derivative inputs (.token i j) = ∑ t : Fin (trace.length + 1),
      if trace.inputs.get t = i.val then (b.memory.get t).get j else 0 := by
  rw [derivative, Tensor.sum_real, Scalar.zero_real]

theorem derivative_position (i : Fin (s.maxLength + 1)) (j : Fin s.width) :
    b.derivative inputs (.position i j) = ∑ t : Fin (trace.length + 1),
      if t.val = i.val then (b.memory.get t).get j else 0 := by
  rw [derivative, Scalar.zero_real]
  split
  · rename_i inside
    rw [Fintype.sum_eq_single ⟨i.val, inside⟩, if_pos rfl]
    exact fun t other => if_neg fun same => other (Fin.ext same)
  · rename_i outside
    symm
    apply Finset.sum_eq_zero
    intro t _
    have differs : t.val ≠ i.val := fun same => outside (same ▸ t.isLt)
    exact if_neg differs

theorem derivative_depth (i : Fin (s.maxLength + 2)) (j : Fin s.width) :
    b.derivative inputs (.depth i j) = if i.val = trace.depth then b.queryInput.get j else 0 := by
  rw [derivative, Scalar.zero_real]

theorem slope_eq (slopes : List (Vec ℝ s.width)) (reversed : b.slopes = slopes.toArray)
    (l : Fin s.layers) (j : Fin s.width) : b.slope l j = entryAt slopes l.val j := by
  rw [slope, entryAt, reversed, List.getElem?_toArray]
  cases slopes[l.val]? with
  | none => exact Scalar.zero_real
  | some vector => rfl

theorem layerInput_eq (vectors : List (Vec ℝ s.width)) (l : Fin s.layers) (i : Fin s.width) :
    layerInput vectors.toArray l i = entryAt vectors l.val i := by
  rw [layerInput, entryAt, List.getElem?_toArray]
  cases vectors[l.val]? with
  | none => exact Scalar.zero_real
  | some vector => rfl

end Backward

namespace MovingParameters

variable (P : MovingParameters s x₀) (actions : List Nat) (depth : Nat)

/-- Weights on the scores weigh the rate of every parameter by its derivative. -/
theorem logits_hasTangent :
    ∃ logits', Vec.HasTangent (fun x => logitsOf (P.parameters x) actions depth) logits' x₀ ∧
      ∀ (allowed : List Bool) (probabilities g : Vec ℝ s.actions),
        ∑ a, logits' a * g.get a = Coordinate.total fun c => P.rate c *
          (backward P.here (traceOf P.here actions depth allowed probabilities) g).derivative
            ((towerOf P.here actions depth).1.map LayerTrace.input).toArray c := by
  obtain ⟨bottom', bottom, bottomAdjoint⟩ := P.bottom_hasTangent actions depth
  obtain ⟨top', top, towerAdjoint⟩ := climb_hasTangent P.layer bottom
  simp only [← tower_toList] at top towerAdjoint
  obtain ⟨output', output, outputAdjoint⟩ :=
    top.vecMul fun i a => P.moves (.outputWeight i a)
  refine ⟨_, output.add fun a => P.moves (.outputBias a), ?_⟩
  intro allowed probabilities g
  set trace := traceOf P.here actions depth allowed probabilities with traced
  set b := backward P.here trace g with carried
  set inputs := ((towerOf P.here actions depth).1.map LayerTrace.input).toArray
  have below : ∑ c, bottom' c * b.bottom.get c =
      Coordinate.lowerTotal fun c => P.rate c * b.derivative inputs c := by
    rw [bottomAdjoint b.bottom _ _ _ _ rfl rfl rfl rfl, Coordinate.lowerTotal]
    simp only [Backward.derivative_token, Backward.derivative_position, Backward.derivative_depth]
    rfl
  have inTower : ∑ i, top' i * (Tensor.mulVec P.here.outputWeight g).get i =
      ∑ c, bottom' c * b.bottom.get c +
        ∑ l, (∑ i, ∑ j, P.rate (.layerWeight l i j) * b.derivative inputs (.layerWeight l i j) +
          ∑ j, P.rate (.layerBias l j) * b.derivative inputs (.layerBias l j)) := by
    rw [towerAdjoint _ _ (descentOf P.here trace g).1 b.bottom rfl rfl]
    simp only [Backward.derivative, Backward.slope_eq b (descentOf P.here trace g).1 rfl,
      Backward.layerInput_eq, inputs, MovingLayer.share]
    rfl
  simp only [add_mul, Finset.sum_add_distrib]
  rw [outputAdjoint, Coordinate.total, ← below, ← inTower]
  rfl

end MovingParameters

end Policy

end FactorSearch
