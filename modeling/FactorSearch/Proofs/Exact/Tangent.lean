import Mathlib
import FactorSearch.Proofs.Exact.Scalar

/-!
# Tangents of vectors and matrices

A vector that depends on a number has a tangent when every entry has a derivative.  Each operation
has a forward half, the tangent of its result, and a backward half, which carries weights on the
entries of the result to weights on the entries of the operands: both halves give the same weighted
sum of tangents.
-/

set_option autoImplicit false

namespace FactorSearch

variable {m n k : Nat} {x₀ : ℝ}

/-- The entries of a vector change at the given rates. -/
def Vec.HasTangent (v : ℝ → Vec ℝ n) (v' : Fin n → ℝ) (x₀ : ℝ) : Prop :=
  ∀ i, HasDerivAt (fun x => (v x).get i) (v' i) x₀

def Mat.HasTangent (a : ℝ → Mat ℝ m n) (a' : Fin m → Fin n → ℝ) (x₀ : ℝ) : Prop :=
  ∀ i, Vec.HasTangent (fun x => (a x).get i) (a' i) x₀

theorem hasDerivAt_tanh (x : ℝ) :
    HasDerivAt Real.tanh (1 - Real.tanh x * Real.tanh x) x := by
  have positive := (Real.cosh_pos x).ne'
  have quotient := (Real.hasDerivAt_sinh x).div (Real.hasDerivAt_cosh x) positive
  refine (quotient.congr_of_eventuallyEq ?_).congr_deriv ?_
  · exact .of_forall fun y => Real.tanh_eq_sinh_div_cosh y
  · rw [Real.tanh_eq_sinh_div_cosh]
    field_simp

namespace Vec.HasTangent

variable {v w : ℝ → Vec ℝ n} {v' w' : Fin n → ℝ}

theorem add (left : Vec.HasTangent v v' x₀) (right : Vec.HasTangent w w' x₀) :
    Vec.HasTangent (fun x => Tensor.add (v x) (w x)) (fun i => v' i + w' i) x₀ := by
  intro i
  simp only [Tensor.get_add]
  exact (left i).add (right i)

theorem vecMul {u : ℝ → Vec ℝ m} {u' : Fin m → ℝ} {a : ℝ → Mat ℝ m n} {a' : Fin m → Fin n → ℝ}
    (left : Vec.HasTangent u u' x₀) (right : Mat.HasTangent a a' x₀) :
    ∃ y', Vec.HasTangent (fun x => Tensor.vecMul (u x) (a x)) y' x₀ ∧
      ∀ g : Vec ℝ n, ∑ j, y' j * g.get j =
        ∑ i, u' i * (Tensor.mulVec (a x₀) g).get i +
          ∑ i, ∑ j, a' i j * ((u x₀).get i * g.get j) := by
  refine ⟨fun j => ∑ i, (u' i * ((a x₀).get i).get j + (u x₀).get i * a' i j), ?_, ?_⟩
  · intro j
    simp only [Tensor.get_vecMul]
    exact HasDerivAt.fun_sum fun i _ => (left i).mul (right i j)
  · intro g
    simp only [Tensor.get_mulVec, Finset.sum_mul, Finset.mul_sum, ← Finset.sum_add_distrib]
    rw [Finset.sum_comm]
    exact Finset.sum_congr rfl fun i _ => Finset.sum_congr rfl fun j _ => by ring

theorem tanh (moves : Vec.HasTangent v v' x₀) :
    Vec.HasTangent (fun x => Vector.ofFn fun i => Scalar.tanh ((v x).get i))
      (fun i => v' i * (1 - Real.tanh ((v x₀).get i) * Real.tanh ((v x₀).get i))) x₀ := by
  intro i
  simp only [Vec.get_ofFn, Scalar.tanh_real, mul_comm (v' i)]
  exact (hasDerivAt_tanh _).comp x₀ (moves i)

end Vec.HasTangent

namespace Mat.HasTangent

theorem mul {a : ℝ → Mat ℝ m k} {a' : Fin m → Fin k → ℝ} {b : ℝ → Mat ℝ k n}
    {b' : Fin k → Fin n → ℝ} (left : Mat.HasTangent a a' x₀) (right : Mat.HasTangent b b' x₀) :
    ∃ y', Mat.HasTangent (fun x => Tensor.mul (a x) (b x)) y' x₀ ∧
      ∀ g : Mat ℝ m n, ∑ t, ∑ j, y' t j * (g.get t).get j =
        ∑ t, ∑ i, a' t i * ((Tensor.mulTranspose g (b x₀)).get t).get i +
          ∑ i, ∑ j, b' i j * ((Tensor.transposeMul (a x₀) g).get i).get j := by
  choose y' moves adjoint using fun t => (left t).vecMul right
  refine ⟨y', ?_, ?_⟩
  · intro t
    simp only [Tensor.mul, Vec.get_ofFn]
    exact moves t
  · intro g
    have swapped : ∑ t, ∑ i, ∑ j, b' i j * (((a x₀).get t).get i * (g.get t).get j) =
        ∑ i, ∑ j, b' i j * ((Tensor.transposeMul (a x₀) g).get i).get j := by
      simp only [Tensor.get_transposeMul, Finset.mul_sum]
      rw [Finset.sum_comm]
      exact Finset.sum_congr rfl fun i _ => Finset.sum_comm
    simp only [adjoint, Finset.sum_add_distrib, swapped, Tensor.mulTranspose, Vec.get_ofFn]

variable {a : ℝ → Mat ℝ m n} {a' : Fin m → Fin n → ℝ}

/-- Looking up a row; its weights go to that row alone. -/
theorem rowOrZero (moves : Mat.HasTangent a a' x₀) (index : Nat) :
    ∃ r', Vec.HasTangent (fun x => Tensor.rowOrZero (a x) index) r' x₀ ∧
      ∀ g : Fin n → ℝ, ∑ c, r' c * g c = ∑ i, ∑ c, a' i c * if i.val = index then g c else 0 := by
  by_cases inside : index < m
  · refine ⟨a' ⟨index, inside⟩, ?_, ?_⟩
    · simp only [Tensor.rowOrZero, dif_pos inside]
      exact moves ⟨index, inside⟩
    · intro g
      symm
      rw [Fintype.sum_eq_single ⟨index, inside⟩]
      · simp only [if_true]
      · intro i other
        have differs : i.val ≠ index := fun same => other (Fin.ext same)
        simp only [differs, if_false, mul_zero, Finset.sum_const_zero]
  · refine ⟨0, ?_, ?_⟩
    · simp only [Tensor.rowOrZero, dif_neg inside]
      exact fun c => hasDerivAt_const x₀ _
    · intro g
      have differs : ∀ i : Fin m, i.val ≠ index := fun i same => inside (same ▸ i.isLt)
      simp [differs]

theorem rowsOrZero (moves : Mat.HasTangent a a' x₀) (index : Fin k → Nat) :
    ∃ r' : Fin k → Fin n → ℝ,
      (∀ t, Vec.HasTangent (fun x => Tensor.rowOrZero (a x) (index t)) (r' t) x₀) ∧
      ∀ g : Fin k → Fin n → ℝ, ∑ t, ∑ c, r' t c * g t c =
        ∑ i, ∑ c, a' i c * ∑ t, if index t = i.val then g t c else 0 := by
  choose r' tangent adjoint using fun t => moves.rowOrZero (index t)
  refine ⟨r', tangent, ?_⟩
  intro g
  simp only [adjoint, Finset.mul_sum]
  rw [Finset.sum_comm]
  refine Finset.sum_congr rfl fun i _ => ?_
  rw [Finset.sum_comm]
  simp only [eq_comm]

end Mat.HasTangent

end FactorSearch
