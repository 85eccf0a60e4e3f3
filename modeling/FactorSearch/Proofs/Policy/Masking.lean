import FactorSearch.Policy.Softmax

/-!
# Masked weights

A disallowed action gets the weight zero divided by the total.  For doubles that is a zero or a
missing value, whatever the total is, and never a positive number; so an action of positive weight
is one that the mask allows.
-/

set_option autoImplicit false

namespace FactorSearch

/-- Arithmetic in which zero divided by anything is not positive. -/
class Scalar.NullQuotient (α : Type) [Scalar α] : Prop where
  not_lt : ∀ x : α, Scalar.lt 0 (0 / x) = false

/-! ## Zero divided by a double -/

namespace Double

open Float.Model

theorem lt_eq (x y : Float) : Scalar.lt x y = x.toModel.unpack.lt y.toModel.unpack := by
  have order : x < y ↔ x.toModel.unpack.lt y.toModel.unpack = true := by
    change decide (x.toModel < y.toModel) = true ↔ _
    rw [decide_eq_true_iff]
    exact Iff.rfl
  rw [Bool.eq_iff_iff]
  change decide (x < y) = true ↔ _
  rw [decide_eq_true_iff, order]

theorem unpack_zero_quotient (x : Float) :
    ((0 : Float) / x).toModel.unpack = .notANumber ∨
      ∃ sign, ((0 : Float) / x).toModel.unpack = .zero sign := by
  have quotient : ((0 : Float) / x).toModel.unpack =
      (pack (UnpackedFloat.div Format.binary64 (.zero .positive) x.toModel.unpack)).unpack := rfl
  rw [quotient]
  cases x.toModel.unpack with
  | notANumber => exact Or.inl rfl
  | zero sign =>
    cases sign with
    | negative => exact Or.inl rfl
    | positive => exact Or.inl rfl
  | infinity sign =>
    cases sign with
    | negative => exact Or.inr ⟨.negative, rfl⟩
    | positive => exact Or.inr ⟨.positive, rfl⟩
  | finite sign mantissa exponent positive =>
    dsimp only [UnpackedFloat.div]
    cases sign with
    | negative => exact Or.inr ⟨.negative, rfl⟩
    | positive => exact Or.inr ⟨.positive, rfl⟩

instance : Scalar.NullQuotient Float where
  not_lt x := by
    have zero : (0 : Float).toModel.unpack = .zero .positive := rfl
    rw [lt_eq, zero]
    rcases unpack_zero_quotient x with missing | ⟨sign, signed⟩
    · rw [missing]
      rfl
    · rw [signed]
      rfl

end Double

/-! ## Masked softmax -/

namespace Softmax

variable {α : Type} [Scalar α] {n : Nat}

theorem maskOfList_get (allowed : List Bool) (i : Fin n) :
    (maskOfList n allowed).get i = allowed[i.val]?.getD false := by
  simp [maskOfList]

theorem masked_eq_error (logits : Vec α n) (mask : Vector Bool n) (failure : Failure)
    (refused : masked logits mask = .error failure) :
    Scalar.isFinite (allowedMaximum logits mask) = false ∧ failure = .internal .noFiniteLogit := by
  simp only [masked] at refused
  split at refused
  · contradiction
  · rename_i infinite
    exact ⟨Bool.not_eq_true _ ▸ infinite, (Except.error.inj refused).symm⟩

theorem masked_disallowed (logits : Vec α n) (mask : Vector Bool n) (weights : Vec α n)
    (weighed : masked logits mask = .ok weights) (i : Fin n) (disallowed : mask.get i = false) :
    ∃ total : α, weights.get i = 0 / total := by
  simp only [masked] at weighed
  split at weighed
  · rw [← Except.ok.inj weighed]
    simp only [Vec.get_ofFn, disallowed, Bool.false_eq_true, if_false]
    exact ⟨_, rfl⟩
  · contradiction

theorem allowed_of_positive [Scalar.NullQuotient α] (logits : Vec α n) (mask : Vector Bool n)
    (weights : Vec α n) (weighed : masked logits mask = .ok weights) (i : Fin n)
    (positive : Scalar.lt 0 (weights.get i) = true) : mask.get i = true := by
  cases choice : mask.get i with
  | true => rfl
  | false =>
    obtain ⟨total, zero⟩ := masked_disallowed logits mask weights weighed i choice
    rw [zero, Scalar.NullQuotient.not_lt] at positive
    contradiction

end Softmax

end FactorSearch
