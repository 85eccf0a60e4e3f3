import Mathlib
import FactorSearch.Proofs.Policy.Backpropagation

/-!
# The gradient of a step

In exact arithmetic the forward pass succeeds wherever it is within range, and its trace is a
function of the parameters.  The share of a step in the loss changes with the scores as the
gradient of the scores says, and so with every parameter as the backward pass says.
-/

set_option autoImplicit false

namespace FactorSearch

namespace Policy

variable {s : Shape} {x₀ : ℝ}

/-! ## The exact forward pass -/

noncomputable def exactTrace (p : Parameters ℝ s) (actions : List Nat) (depth : Nat)
    (allowed : List Bool) : Trace ℝ s :=
  traceOf p actions depth allowed (Vector.ofFn
    (Softmax.share (Softmax.maskOfList s.actions allowed).get (logitsOf p actions depth).get))

theorem forward_eq_ok_iff (p : Parameters ℝ s) (actions : List Nat) (depth : Nat)
    (allowed : List Bool) (trace : Trace ℝ s) :
    forward p actions depth allowed = .ok trace ↔
      actions.length ≤ s.maxLength ∧ depth ≤ s.maxLength + 1 ∧ allowed.length = s.actions ∧
        exactTrace p actions depth allowed = trace := by
  constructor
  · intro passed
    by_cases outside : s.maxLength < actions.length ∨ s.maxLength + 1 < depth
    · rw [forward, if_pos outside] at passed
      contradiction
    · by_cases entries : allowed.length = s.actions
      · have length : actions.length ≤ s.maxLength := by omega
        have shallow : depth ≤ s.maxLength + 1 := by omega
        rw [forward_in_range p actions depth allowed length shallow entries,
          Softmax.masked_real] at passed
        exact ⟨length, shallow, entries, Except.ok.inj passed⟩
      · rw [forward, if_neg outside, if_pos entries] at passed
        contradiction
  · rintro ⟨length, shallow, entries, rfl⟩
    rw [forward_in_range p actions depth allowed length shallow entries, Softmax.masked_real]
    rfl

section Step

variable (p : Parameters ℝ s) (actions : List Nat) (depth : Nat) (allowed : List Bool)

theorem exactTrace_probability (i : Fin s.actions) :
    (exactTrace p actions depth allowed).probabilities.get i =
      Softmax.share (Softmax.maskOfList s.actions allowed).get (logitsOf p actions depth).get i :=
  Vec.get_ofFn ..

theorem exactTrace_logProbability (action : Fin s.actions) :
    (exactTrace p actions depth allowed).logProbability action.val =
      Real.log (Softmax.share (Softmax.maskOfList s.actions allowed).get
        (logitsOf p actions depth).get action) := by
  rw [Trace.logProbability, Softmax.logWeight_real, exactTrace_probability]

theorem exactTrace_entropy :
    (exactTrace p actions depth allowed).entropy =
      Softmax.shareEntropy (Softmax.maskOfList s.actions allowed).get
        (logitsOf p actions depth).get := by
  rw [Trace.entropy, Softmax.entropy_real]
  · simp only [exactTrace_probability, Softmax.shareEntropy]
  · intro i
    rw [exactTrace_probability]
    exact Softmax.share_nonneg ..

/-- The share of a step in the loss: its action pays the advantage, its entropy the bonus. -/
noncomputable def stepLoss (advantage entropyScale : ℝ) (trace : Trace ℝ s) (action : Nat) : ℝ :=
  -(advantage * trace.logProbability action) - entropyScale * trace.entropy

theorem get_logitGradient (action : Fin s.actions)
    (inside : (Softmax.maskOfList s.actions allowed).get action = true)
    (advantage entropyScale : ℝ) (i : Fin s.actions) :
    (logitGradient (exactTrace p actions depth allowed) action.val advantage entropyScale).get i =
      Softmax.choiceSlope (Softmax.maskOfList s.actions allowed).get action advantage entropyScale
        (logitsOf p actions depth).get i := by
  have masked : (exactTrace p actions depth allowed).mask =
    Softmax.maskOfList s.actions allowed := rfl
  simp only [logitGradient, Vec.get_ofFn, exactTrace_probability, exactTrace_entropy, masked,
    Scalar.zero_real, Scalar.one_real, Scalar.lt_real, Scalar.log_real, decide_eq_true_eq,
    Softmax.share_pos_iff, Fin.val_inj]
  cases admits : (Softmax.maskOfList s.actions allowed).get i with
  | true =>
    rw [if_pos rfl, if_pos rfl, Softmax.choiceSlope, mul_assoc]
  | false => rw [if_neg Bool.false_ne_true, Softmax.choiceSlope_of_not _ inside _ _ _ admits]

end Step

theorem hasDerivAt_stepLoss (P : MovingParameters s x₀) (actions : List Nat) (depth : Nat)
    (allowed : List Bool) (action : Fin s.actions)
    (inside : (Softmax.maskOfList s.actions allowed).get action = true)
    (advantage entropyScale : ℝ) (trace : Trace ℝ s)
    (passed : exactTrace P.here actions depth allowed = trace) :
    HasDerivAt
      (fun x => stepLoss advantage entropyScale
        (exactTrace (P.parameters x) actions depth allowed) action.val)
      (Coordinate.total fun c => P.rate c *
        (backward P.here trace
          (logitGradient trace action.val advantage entropyScale)).derivative
          (trace.tower.map LayerTrace.input).toArray c) x₀ := by
  subst passed
  obtain ⟨logits', logits, adjoint⟩ := P.logits_hasTangent actions depth
  have moves := hasDerivAt_pi.mpr logits
  simp only [stepLoss, exactTrace_logProbability, exactTrace_entropy]
  refine (Softmax.hasDerivAt_choiceCost _ inside advantage entropyScale moves).congr_deriv ?_
  refine Eq.trans ?_ (adjoint allowed _ _)
  simp only [get_logitGradient P.here actions depth allowed action inside]
  rfl

/-! ## One coordinate at a time -/

namespace Parameters

variable {α : Type}

def set (p : Parameters α s) (c : Coordinate s) (x : α) : Parameters α s :=
  ofFn fun d => if d = c then x else p.get d

theorem vector_ext {n : Nat} (v w : Vec α n) (same : ∀ i, v.get i = w.get i) : v = w :=
  Vector.ext fun i inside => same ⟨i, inside⟩

theorem matrix_ext {m n : Nat} (a b : Mat α m n)
    (same : ∀ i j, (a.get i).get j = (b.get i).get j) : a = b :=
  Vector.ext fun i inside => vector_ext _ _ (same ⟨i, inside⟩)

theorem layer_ext {n : Nat} (l k : Layer α n)
    (weights : ∀ i j, (l.weight.get i).get j = (k.weight.get i).get j)
    (biases : ∀ j, l.bias.get j = k.bias.get j) : l = k :=
  (Layer.mk.injEq ..).mpr ⟨matrix_ext _ _ weights, vector_ext _ _ biases⟩

theorem ext_get (p q : Parameters α s) (same : ∀ c, p.get c = q.get c) : p = q :=
  (mk.injEq ..).mpr
    ⟨matrix_ext _ _ fun i j => same (.token i j), matrix_ext _ _ fun i j => same (.position i j),
      matrix_ext _ _ fun i j => same (.depth i j), matrix_ext _ _ fun i j => same (.query i j),
      matrix_ext _ _ fun i j => same (.key i j), matrix_ext _ _ fun i j => same (.value i j),
      matrix_ext _ _ fun i j => same (.mixing i j),
      Vector.ext fun l inside => layer_ext _ _ (fun i j => same (.layerWeight ⟨l, inside⟩ i j))
        fun j => same (.layerBias ⟨l, inside⟩ j),
      matrix_ext _ _ fun i a => same (.outputWeight i a),
      vector_ext _ _ fun a => same (.outputBias a)⟩

theorem set_get (p : Parameters α s) (c : Coordinate s) : p.set c (p.get c) = p := by
  apply ext_get
  intro d
  rw [set, get_ofFn]
  split
  · rename_i same
    rw [same]
  · rfl

end Parameters

theorem hasDerivAt_set (p : Parameters ℝ s) (c d : Coordinate s) :
    HasDerivAt (fun x => (p.set c x).get d) (if d = c then 1 else 0) (p.get c) := by
  simp only [Parameters.set, Parameters.get_ofFn]
  split
  · exact hasDerivAt_id _
  · exact hasDerivAt_const _ _

def MovingParameters.along (p : Parameters ℝ s) (c : Coordinate s) :
    MovingParameters s (p.get c) where
  parameters := p.set c
  rate d := if d = c then 1 else 0
  moves := hasDerivAt_set p c

/-- The backward pass gives the partial derivatives of the share of a step in the loss. -/
theorem hasDerivAt_stepLoss_set (p : Parameters ℝ s) (c : Coordinate s) (actions : List Nat)
    (depth : Nat) (allowed : List Bool) (action : Fin s.actions)
    (inside : (Softmax.maskOfList s.actions allowed).get action = true)
    (advantage entropyScale : ℝ) (trace : Trace ℝ s)
    (passed : exactTrace p actions depth allowed = trace) :
    HasDerivAt
      (fun x => stepLoss advantage entropyScale
        (exactTrace (p.set c x) actions depth allowed) action.val)
      ((backward p trace (logitGradient trace action.val advantage entropyScale)).derivative
        (trace.tower.map LayerTrace.input).toArray c) (p.get c) := by
  have here : (MovingParameters.along p c).here = p := p.set_get c
  have slope := hasDerivAt_stepLoss (MovingParameters.along p c) actions depth allowed action
    inside advantage entropyScale trace (by rw [here, passed])
  rw [here] at slope
  exact slope.congr_deriv (Coordinate.total_single c _)

end Policy

end FactorSearch
