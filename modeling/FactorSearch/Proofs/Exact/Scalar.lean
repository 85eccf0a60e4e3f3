import Mathlib
import FactorSearch.Tensor

/-!
# Real numbers as scalars

The computations of the library in exact arithmetic.  There is no missing and no infinite real
number: no test finds one, and zero stands where a computation names one.  Sums, products of
matrices and lookups of rows are those of linear algebra.
-/

set_option autoImplicit false

namespace FactorSearch

/-- Quotients of real numbers are those of the field, and not found through the scalars. -/
noncomputable instance Scalar.divReal : Div ℝ := inferInstance

noncomputable instance Scalar.real : Scalar ℝ where
  toAdd := inferInstance
  toSub := inferInstance
  toMul := inferInstance
  toDiv := inferInstance
  toNeg := inferInstance
  ofNat n := n
  ofScientific := OfScientific.ofScientific
  nan := 0
  infinity := 0
  isNaN _ := false
  isFinite _ := true
  isNegative x := decide (x < 0)
  lt x y := decide (x < y)
  le x y := decide (x ≤ y)
  same x y := decide (x = y)
  abs x := |x|
  sqrt := Real.sqrt
  exp := Real.exp
  log := Real.log
  tanh := Real.tanh
  text _ := ""

namespace Scalar

@[simp] theorem ofNat_real (n : Nat) : (Scalar.ofNat n : ℝ) = n := rfl

@[simp] theorem zero_real : @OfNat.ofNat ℝ 0 (Scalar.instOfNat 0) = 0 := Nat.cast_zero

@[simp] theorem one_real : @OfNat.ofNat ℝ 1 (Scalar.instOfNat 1) = 1 := Nat.cast_one

@[simp] theorem lt_real (x y : ℝ) : Scalar.lt x y = decide (x < y) := rfl

@[simp] theorem le_real (x y : ℝ) : Scalar.le x y = decide (x ≤ y) := rfl

@[simp] theorem same_real (x y : ℝ) : Scalar.same x y = decide (x = y) := rfl

@[simp] theorem isFinite_real (x : ℝ) : Scalar.isFinite x = true := rfl

@[simp] theorem sqrt_real (x : ℝ) : Scalar.sqrt x = √x := rfl

@[simp] theorem min_real (x y : ℝ) : Scalar.min x y = Min.min x y := by
  have compared : Scalar.min x y = if y < x then y else x := by
    simp [Scalar.min, Scalar.isNaN]
  rw [compared, min_comm, min_def_lt]

@[simp] theorem exp_real (x : ℝ) : Scalar.exp x = Real.exp x := rfl

@[simp] theorem log_real (x : ℝ) : Scalar.log x = Real.log x := rfl

@[simp] theorem tanh_real (x : ℝ) : Scalar.tanh x = Real.tanh x := rfl

theorem total_real (values : List ℝ) : Scalar.total values = values.sum := by
  rw [List.sum_eq_foldl]
  exact congrArg (fun start => values.foldl _ start) zero_real

end Scalar

namespace Tensor

variable {m n k : Nat}

theorem sum_zero {α : Type} [Scalar α] (f : Fin 0 → α) : Tensor.sum f = 0 := Fin.foldl_zero ..

theorem sum_succ {α : Type} [Scalar α] (f : Fin (n + 1) → α) :
    Tensor.sum f = Tensor.sum (fun i => f i.castSucc) + f (Fin.last n) :=
  Fin.foldl_succ_last ..

theorem sum_real (f : Fin n → ℝ) : Tensor.sum f = ∑ i, f i := by
  have started : Tensor.sum f = Fin.foldl n (fun total i => total + f i) 0 :=
    congrArg (Fin.foldl n fun total i => total + f i) Scalar.zero_real
  rw [started, Fin.foldl_eq_foldl_finRange, ← List.sum_ofFn, List.ofFn_eq_map, List.sum_eq_foldl,
    List.foldl_map]

theorem dot_real (x y : Vec ℝ n) : Tensor.dot x y = ∑ i, x.get i * y.get i := sum_real _

@[simp] theorem get_add (x y : Vec ℝ n) (i : Fin n) :
    (Tensor.add x y).get i = x.get i + y.get i := Vec.get_ofFn ..

theorem get_vecMul (x : Vec ℝ m) (a : Mat ℝ m n) (j : Fin n) :
    (Tensor.vecMul x a).get j = ∑ i, x.get i * (a.get i).get j := by
  rw [Tensor.vecMul, Vec.get_ofFn, sum_real]

theorem get_mulVec (a : Mat ℝ m n) (x : Vec ℝ n) (i : Fin m) :
    (Tensor.mulVec a x).get i = ∑ j, (a.get i).get j * x.get j := by
  rw [Tensor.mulVec, Vec.get_ofFn, dot_real]

theorem get_transposeMul (a : Mat ℝ k m) (b : Mat ℝ k n) (i : Fin m) (j : Fin n) :
    ((Tensor.transposeMul a b).get i).get j = ∑ l, (a.get l).get i * (b.get l).get j := by
  rw [Tensor.transposeMul, tabulate_apply, sum_real]

end Tensor

end FactorSearch
