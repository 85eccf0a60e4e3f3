import FactorSearch.Proofs.Double.Exact

/-!
# Doubles without magnitude

A zero or a missing double stays one when it is multiplied, divided or summed with others of its
kind, and no order test finds it above zero.  The difference of a finite double and itself is such
a double.  Equality of finite doubles is equality of what they stand for.
-/

set_option autoImplicit false

namespace FactorSearch

namespace Double

open Float.Model

/-! ## Zeros and missing values -/

/-- The double is missing or a zero. -/
def Null (x : Float) : Prop := Missing x ∨ ∃ sign, x.toModel.unpack = .zero sign

theorem null_zero : Null 0 := Or.inr ⟨.positive, rfl⟩

namespace Null

variable {x y : Float}

theorem of_unpack {u : UnpackedFloat} (here : x.toModel.unpack = (pack u).unpack)
    (kind : u = .notANumber ∨ ∃ sign, u = .zero sign) : Null x := by
  rcases kind with rfl | ⟨sign, rfl⟩
  · exact Or.inl here
  · exact Or.inr ⟨sign, here.trans (unpack_pack_zero sign)⟩

theorem add (left : Null x) (right : Null y) : Null (x + y) := by
  apply of_unpack (unpack_add x y)
  rcases left with missing | ⟨sign, zero⟩
  · rw [missing]
    exact Or.inl rfl
  · rw [zero]
    rcases right with missing | ⟨other, zero⟩
    · rw [missing]
      exact Or.inl rfl
    · rw [zero]
      dsimp only [UnpackedFloat.add]
      split
      · exact Or.inr ⟨sign, rfl⟩
      · exact Or.inr ⟨.positive, rfl⟩

theorem sub (left : Null x) (right : Null y) : Null (x - y) := by
  apply of_unpack (unpack_sub x y)
  rcases left with missing | ⟨sign, zero⟩
  · rw [missing]
    exact Or.inl rfl
  · rw [zero]
    rcases right with missing | ⟨other, zero⟩
    · rw [missing]
      exact Or.inl rfl
    · rw [zero]
      dsimp only [UnpackedFloat.sub]
      split
      · exact Or.inr ⟨sign, rfl⟩
      · exact Or.inr ⟨.positive, rfl⟩

theorem mul_left (null : Null x) (y : Float) : Null (x * y) := by
  apply of_unpack (unpack_mul x y)
  rcases null with missing | ⟨sign, zero⟩
  · rw [missing]
    exact Or.inl rfl
  · rw [zero]
    cases y.toModel.unpack with
    | notANumber | infinity other => exact Or.inl rfl
    | zero other | finite other m e positive => exact Or.inr ⟨sign * other, rfl⟩

theorem div_left (null : Null x) (y : Float) : Null (x / y) := by
  apply of_unpack (unpack_div x y)
  rcases null with missing | ⟨sign, zero⟩
  · rw [missing]
    exact Or.inl rfl
  · rw [zero]
    cases y.toModel.unpack with
    | notANumber | zero other => exact Or.inl rfl
    | infinity other | finite other m e positive => exact Or.inr ⟨sign / other, rfl⟩

theorem sqrt (null : Null x) : Null (Scalar.sqrt x) := by
  apply of_unpack (unpack_sqrt x)
  rcases null with missing | ⟨sign, zero⟩
  · rw [missing]
    exact Or.inl rfl
  · rw [zero]
    exact Or.inr ⟨sign, rfl⟩

theorem not_positive (null : Null x) : Scalar.lt 0 x = false := by
  rcases null with missing | ⟨sign, zero⟩
  · exact missing.not_lt 0
  · rw [lt_eq, zero]
    rfl

theorem total (values : List Float) (nulls : ∀ x ∈ values, Null x) :
    Null (Scalar.total values) := by
  have sums : ∀ start, Null start → Null (values.foldl (fun sum value => sum + value) start) := by
    induction values with
    | nil => exact fun _ null => null
    | cons first rest ih =>
      intro start null
      exact ih (fun x member => nulls x (List.mem_cons_of_mem _ member)) _
        (null.add (nulls first List.mem_cons_self))
  exact sums 0 null_zero

end Null

theorem null_sub_self {x : Float} (finite : Scalar.isFinite x = true) : Null (x - x) := by
  rw [isFinite_eq] at finite
  cases kind : x.toModel.unpack with
  | notANumber | infinity =>
    rw [kind] at finite
    cases finite
  | zero sign => exact Null.sub (Or.inr ⟨sign, kind⟩) (Or.inr ⟨sign, kind⟩)
  | finite sign m e positive =>
    apply Null.of_unpack (unpack_sub x x)
    rw [kind]
    simp only [UnpackedFloat.sub, Int.sub_self]
    exact Or.inr ⟨.positive, rfl⟩

theorem null_of_value {x : Float} (finite : Scalar.isFinite x = true) (nothing : value x = 0) :
    Null x := by
  rw [isFinite_eq] at finite
  rw [value] at nothing
  cases kind : x.toModel.unpack with
  | notANumber => exact Or.inl kind
  | zero sign => exact Or.inr ⟨sign, kind⟩
  | infinity =>
    rw [kind] at finite
    cases finite
  | finite sign m e positive =>
    rw [kind, valueOf, mul_eq_zero, or_iff_left (zpow_ne_zero e two_ne_zero)] at nothing
    cases sign with
    | positive | negative =>
      simp only [UnpackedFloat.Sign.apply, Int.cast_eq_zero] at nothing
      omega

/-! ## Equality tests -/

theorem same_eq (x y : Float) :
    Scalar.same x y = x.toModel.unpack.beq y.toModel.unpack := rfl

theorem value_eq_of_same {x y : Float} (same : Scalar.same x y = true) : value x = value y := by
  rw [same_eq, UnpackedFloat.beq_iff_ne_notANumber_and_eq] at same
  obtain ⟨_, _, equal | ⟨left, right⟩ | ⟨left, right⟩⟩ := same
  · rw [value, equal, value]
  · simp only [value, left, right, valueOf]
  · simp only [value, left, right, valueOf]

theorem same_of_value {x y : Float} (left : Scalar.isFinite x = true)
    (right : Scalar.isFinite y = true) (equal : value x = value y) : Scalar.same x y = true := by
  rw [same_eq, UnpackedFloat.beq_iff_ne_notANumber_and_eq]
  rw [isFinite_eq] at left right
  have known {z : Float} (finite : z.toModel.unpack.isFinite = true) :
      z.toModel.unpack ≠ .notANumber := by
    intro missing
    rw [missing] at finite
    cases finite
  refine ⟨known left, known right, ?_⟩
  by_cases some : value y = 0
  · rcases null_of_value left (equal.trans some) with missing | ⟨sign, zero⟩
    · exact absurd missing (known left)
    · rcases null_of_value right some with missing | ⟨other, zero'⟩
      · exact absurd missing (known right)
      · rw [zero, zero']
        cases sign with
        | positive | negative =>
          cases other with
          | positive | negative => simp
  · exact Or.inl (congrArg (fun z : Float => z.toModel.unpack) (eq_of_value some equal))

theorem not_lt_of_same {x y : Float} (same : Scalar.same x y = true) : Scalar.lt x y = false := by
  rw [same_eq, UnpackedFloat.beq, beq_iff_eq] at same
  rw [lt_eq, UnpackedFloat.lt, same]
  rfl

theorem le_eq (x y : Float) : Scalar.le x y = x.toModel.unpack.le y.toModel.unpack := by
  have order : x ≤ y ↔ x.toModel.unpack.le y.toModel.unpack = true := by
    change decide (x.toModel ≤ y.toModel) = true ↔ _
    rw [decide_eq_true_iff]
    exact Iff.rfl
  rw [Bool.eq_iff_iff]
  change decide (x ≤ y) = true ↔ _
  rw [decide_eq_true_iff, order]

theorem not_lt_zero_of_nonnegative {x : Float} (nonnegative : Scalar.le 0 x = true) :
    Scalar.lt x 0 = false := by
  have zero : (0 : Float).toModel.unpack = .zero .positive := rfl
  rw [le_eq, zero] at nonnegative
  rw [lt_eq, zero]
  cases kind : x.toModel.unpack with
  | notANumber => rfl
  | zero sign => rfl
  | infinity sign | finite sign =>
    rw [kind] at nonnegative
    cases sign with
    | positive => rfl
    | negative => cases nonnegative

end Double

end FactorSearch
