import FactorSearch.Proofs.Double.Signs

/-!
# Missing doubles

There is one missing double.  An operation with a missing operand gives it again, on either side and
whatever the other operand is.
-/

set_option autoImplicit false

namespace FactorSearch

namespace Double

open Float.Model

theorem missing_nan : Missing Scalar.nan := rfl

theorem Missing.eq_nan {x : Float} (missing : Missing x) : x = Scalar.nan :=
  eq_of_unpack (Eq.trans missing missing_nan.symm)

theorem Missing.not_finite {x : Float} (missing : Missing x) : Scalar.isFinite x = false := by
  rw [isFinite_eq, missing]
  rfl

theorem unpack_neg (x : Float) :
    (-x).toModel.unpack = (pack (UnpackedFloat.neg x.toModel.unpack)).unpack := rfl

theorem unpack_abs (x : Float) :
    (Scalar.abs x).toModel.unpack = (pack (UnpackedFloat.abs x.toModel.unpack)).unpack := rfl

variable {x y : Float}

theorem Missing.neg (missing : Missing x) : Missing (-x) := by
  rw [Missing, unpack_neg, missing]
  exact unpack_pack_missing

theorem Missing.abs (missing : Missing x) : Missing (Scalar.abs x) := by
  rw [Missing, unpack_abs, missing]
  exact unpack_pack_missing

theorem Missing.sub_right (missing : Missing y) (x : Float) : Missing (x - y) := by
  rw [Missing, unpack_sub, missing]
  cases x.toModel.unpack with
  | notANumber | infinity | zero | finite => exact unpack_pack_missing

theorem Missing.mul_left (missing : Missing x) (y : Float) : Missing (x * y) := by
  rw [Missing, unpack_mul, missing]
  exact unpack_pack_missing

theorem Missing.mul_right (missing : Missing y) (x : Float) : Missing (x * y) := by
  rw [Missing, unpack_mul, missing]
  cases x.toModel.unpack with
  | notANumber | infinity | zero | finite => exact unpack_pack_missing

/-! ## Either operand -/

theorem missing_add (x y : Float) (given : Missing x ∨ Missing y) : Missing (x + y) :=
  given.elim (fun missing => missing.add_left y) fun missing => missing.add_right x

theorem missing_sub (x y : Float) (given : Missing x ∨ Missing y) : Missing (x - y) :=
  given.elim (fun missing => missing.sub_left y) fun missing => missing.sub_right x

theorem missing_mul (x y : Float) (given : Missing x ∨ Missing y) : Missing (x * y) :=
  given.elim (fun missing => missing.mul_left y) fun missing => missing.mul_right x

theorem missing_div (x y : Float) (given : Missing x ∨ Missing y) : Missing (x / y) :=
  given.elim (fun missing => missing.div_left y) fun missing => missing.div_right x

end Double

end FactorSearch
