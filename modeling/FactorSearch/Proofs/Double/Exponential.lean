import FactorSearch.Proofs.Double.Signs
import FactorSearch.Proofs.Exact.Maximum

/-!
# Doubles with any exponential

The exponential of doubles is not defined in the logic.  What is proved of computations with it is
proved for every function in its place that treats missing values, zero and the numbers below zero
as an exponential does; all other operations stay those of doubles.
-/

set_option autoImplicit false

namespace FactorSearch

/-- Doubles with a function in the place of the exponential. -/
def DoubleWith (_exp : Float → Float) : Type := Float

namespace DoubleWith

instance scalar (exp : Float → Float) : Scalar (DoubleWith exp) :=
  { (inferInstance : Scalar Float) with exp := exp }

instance ordered (exp : Float → Float) : Scalar.Ordered (DoubleWith exp) where
  Place := ℤ ×ₗ ℤ ×ₗ ℤ
  line := inferInstance
  place x := Double.placeOf (Float.toModel x).unpack
  lt_iff := Double.lt_iff_place
  le_iff := Double.le_iff_place
  same_iff := Double.same_iff_place
  present := Double.present_of_finite
  small_finite := Double.small_finite
  negOne_le := Double.negOne_le

instance bounded (exp : Float → Float) : Scalar.Bounded (DoubleWith exp) where
  isFinite_iff := Scalar.boundedFloat.isFinite_iff

/-- A function that keeps missing values, is one at zero, and takes what is at most zero to the
numbers from zero to one. -/
structure Exponential (exp : Float → Float) : Prop where
  missing (x : Float) : Scalar.isNaN x = true → Scalar.isNaN (exp x) = true
  zero (x : Float) : Scalar.same x 0 = true → exp x = 1
  falls (x : Float) : Scalar.le x 0 = true →
    Scalar.le 0 (exp x) = true ∧ Scalar.le (exp x) 1 = true

variable {exp : Float → Float}

/-! Only the exponential differs from that of doubles, so what is known of their other operations
holds as it stands. -/

section Operations

variable {x y : DoubleWith exp}

protected theorem sub_nonpos (finite : Scalar.isFinite y = true) (below : Scalar.le x y = true) :
    Scalar.le (x - y) 0 = true := Double.sub_nonpos finite below

theorem sub_self_same (finite : Scalar.isFinite x = true) : Scalar.same (x - x) 0 = true :=
  Double.sub_self_same finite

theorem sum_pos {n : Nat} (f : Fin n → DoubleWith exp) (nonneg : ∀ i, Scalar.le 0 (f i) = true)
    (i : Fin n) (positive : Scalar.lt 0 (f i) = true) : Scalar.lt 0 (Tensor.sum f) = true :=
  Double.sum_pos f nonneg i positive

protected theorem div_nonneg (finite : Scalar.isFinite x = true) (nonneg : Scalar.le 0 x = true)
    (positive : Scalar.lt 0 y = true) : Scalar.le 0 (x / y) = true :=
  Double.div_nonneg finite nonneg positive

theorem zero_div_of_pos (positive : Scalar.lt 0 y = true) : 0 / y = 0 :=
  Double.zero_div_of_pos positive

protected theorem zero_lt_one : Scalar.lt (0 : DoubleWith exp) 1 = true := Double.zero_lt_one

protected theorem zero_le_one : Scalar.le (0 : DoubleWith exp) 1 = true :=
  Double.nonneg_of_pos Double.zero_lt_one

theorem isNaN_sub_left (missing : Scalar.isNaN x = true) (y : DoubleWith exp) :
    Scalar.isNaN (x - y) = true :=
  (Double.isNaN_iff _).mpr (((Double.isNaN_iff _).mp missing).sub_left y)

theorem isNaN_div_right (missing : Scalar.isNaN y = true) (x : DoubleWith exp) :
    Scalar.isNaN (x / y) = true :=
  (Double.isNaN_iff _).mpr (((Double.isNaN_iff _).mp missing).div_right x)

theorem isNaN_sum {n : Nat} (f : Fin n → DoubleWith exp) (i : Fin n)
    (missing : Scalar.isNaN (f i) = true) : Scalar.isNaN (Tensor.sum f) = true :=
  (Double.isNaN_iff _).mpr (Double.missing_sum f i ((Double.isNaN_iff _).mp missing))

end Operations

/-- The coarsest of these functions: nothing is left of what is below zero. -/
def cutoff (x : Float) : Float := if Scalar.isNaN x then x else if Scalar.lt x 0 then 0 else 1

theorem cutoff_exponential : Exponential cutoff where
  missing x missing := by rw [cutoff, if_pos missing]; exact missing
  zero x same := by
    have present := ((Scalar.Ordered.same_iff x 0).mp same).1
    rw [cutoff, present, Double.not_lt_of_same same]
    rfl
  falls x below := by
    have present := ((Scalar.Ordered.le_iff x 0).mp below).1
    have zero : Scalar.le (0 : Float) 0 = true := by decide +kernel
    have one : Scalar.le (1 : Float) 1 = true := by decide +kernel
    rw [cutoff, present, if_neg Bool.false_ne_true]
    split
    · exact ⟨zero, Double.nonneg_of_pos Double.zero_lt_one⟩
    · exact ⟨Double.nonneg_of_pos Double.zero_lt_one, one⟩

end DoubleWith

end FactorSearch
