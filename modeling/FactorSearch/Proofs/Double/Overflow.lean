import Mathlib
import FactorSearch.Proofs.Policy.Masking
import FactorSearch.Statistics.Moments

/-!
# Doubles beyond the finite ones

An infinite or missing double does not come back in a sum: adding to it, or adding it to anything,
gives the infinity of its sign or a missing value.  Dividing by a number of things keeps that, and
two such doubles of one sign have no difference.  Order tests fail on missing values.
-/

set_option autoImplicit false

namespace FactorSearch

namespace Double

open Float.Model

/-! ## Operations on what is unpacked -/

theorem unpack_add (x y : Float) : (x + y).toModel.unpack =
    (pack (UnpackedFloat.add Format.binary64 x.toModel.unpack y.toModel.unpack)).unpack := rfl

theorem unpack_sub (x y : Float) : (x - y).toModel.unpack =
    (pack (UnpackedFloat.sub Format.binary64 x.toModel.unpack y.toModel.unpack)).unpack := rfl

theorem unpack_mul (x y : Float) : (x * y).toModel.unpack =
    (pack (UnpackedFloat.mul Format.binary64 x.toModel.unpack y.toModel.unpack)).unpack := rfl

theorem unpack_div (x y : Float) : (x / y).toModel.unpack =
    (pack (UnpackedFloat.div Format.binary64 x.toModel.unpack y.toModel.unpack)).unpack := rfl

theorem unpack_sqrt (x : Float) : (Scalar.sqrt x).toModel.unpack =
    (pack (UnpackedFloat.sqrt Format.binary64 x.toModel.unpack)).unpack := rfl

theorem unpack_pack_missing : (pack .notANumber).unpack = .notANumber := rfl

theorem unpack_pack_infinity (sign : UnpackedFloat.Sign) :
    (pack (.infinity sign)).unpack = .infinity sign := by
  cases sign with
  | negative | positive => rfl

theorem unpack_pack_zero (sign : UnpackedFloat.Sign) : (pack (.zero sign)).unpack = .zero sign := by
  cases sign with
  | negative | positive => rfl

theorem isFinite_eq (x : Float) : Scalar.isFinite x = x.toModel.unpack.isFinite := rfl

theorem isNaN_eq (x : Float) : Scalar.isNaN x = x.toModel.unpack.isNaN := rfl

/-! ## Missing values -/

def Missing (x : Float) : Prop := x.toModel.unpack = .notANumber

theorem isNaN_iff (x : Float) : Scalar.isNaN x = true ↔ Missing x := by
  rw [isNaN_eq, Missing]
  cases x.toModel.unpack with
  | notANumber | infinity | zero | finite => simp [UnpackedFloat.isNaN]

theorem Missing.sub_left {x : Float} (missing : Missing x) (y : Float) : Missing (x - y) := by
  rw [Missing] at missing
  rw [Missing, unpack_sub, missing]
  exact unpack_pack_missing

theorem Missing.square {x : Float} (missing : Missing x) : Missing (Scalar.square x) := by
  rw [Missing] at missing
  rw [Missing, Scalar.square, unpack_mul, missing]
  exact unpack_pack_missing

theorem Missing.div_left {x : Float} (missing : Missing x) (y : Float) : Missing (x / y) := by
  rw [Missing] at missing
  rw [Missing, unpack_div, missing]
  exact unpack_pack_missing

theorem Missing.sqrt {x : Float} (missing : Missing x) : Missing (Scalar.sqrt x) := by
  rw [Missing] at missing
  rw [Missing, unpack_sqrt, missing]
  exact unpack_pack_missing

theorem Missing.not_lt {x : Float} (missing : Missing x) (y : Float) : Scalar.lt y x = false := by
  rw [Missing] at missing
  rw [lt_eq, missing]
  cases y.toModel.unpack with
  | notANumber | infinity | zero | finite => rfl

theorem Missing.min {x : Float} (missing : Missing x) (y : Float) : Scalar.min x y = y := by
  have test : Scalar.isNaN x = true := by
    rw [isNaN_eq, missing]
    rfl
  rw [Scalar.min, if_pos test]

/-! ## Beyond every finite double -/

/-- The double is missing, or is the infinity of the sign. -/
def Beyond (sign : UnpackedFloat.Sign) (x : Float) : Prop :=
  Missing x ∨ x.toModel.unpack = .infinity sign

theorem exists_beyond (x : Float) (overflowed : Scalar.isFinite x = false) :
    ∃ sign, Beyond sign x := by
  rw [isFinite_eq] at overflowed
  cases kind : x.toModel.unpack with
  | notANumber => exact ⟨.positive, Or.inl kind⟩
  | infinity sign => exact ⟨sign, Or.inr kind⟩
  | zero sign =>
    rw [kind] at overflowed
    contradiction
  | finite sign mantissa exponent positive =>
    rw [kind] at overflowed
    contradiction

namespace Beyond

variable {sign : UnpackedFloat.Sign} {x y : Float}

theorem not_finite (beyond : Beyond sign x) : Scalar.isFinite x = false := by
  rw [isFinite_eq]
  rcases beyond with missing | infinite
  · rw [missing]
    rfl
  · rw [infinite]
    rfl

theorem of_unpack {u : UnpackedFloat} (here : x.toModel.unpack = (pack u).unpack)
    (kind : u = .notANumber ∨ u = .infinity sign) : Beyond sign x := by
  rcases kind with rfl | rfl
  · exact Or.inl here
  · exact Or.inr (here.trans (unpack_pack_infinity sign))

theorem add_left (beyond : Beyond sign x) (y : Float) : Beyond sign (x + y) := by
  apply of_unpack (unpack_add x y)
  rcases beyond with missing | infinite
  · rw [missing]
    exact Or.inl rfl
  · rw [infinite]
    cases y.toModel.unpack with
    | notANumber => exact Or.inl rfl
    | infinity other =>
      dsimp only [UnpackedFloat.add]
      split
      · exact Or.inr rfl
      · exact Or.inl rfl
    | zero other => exact Or.inr rfl
    | finite other mantissa exponent positive => exact Or.inr rfl

theorem add_right (beyond : Beyond sign y) (x : Float) : Beyond sign (x + y) := by
  apply of_unpack (unpack_add x y)
  rcases beyond with missing | infinite
  · rw [missing]
    cases x.toModel.unpack with
    | notANumber | infinity | zero | finite => exact Or.inl rfl
  · rw [infinite]
    cases x.toModel.unpack with
    | notANumber => exact Or.inl rfl
    | infinity other =>
      dsimp only [UnpackedFloat.add]
      by_cases same : other = sign
      · subst same
        cases other with
        | negative | positive => exact Or.inr rfl
      · rw [if_neg (by rw [beq_iff_eq]; exact same)]
        exact Or.inl rfl
    | zero other => exact Or.inr rfl
    | finite other mantissa exponent positive => exact Or.inr rfl

theorem sub (left : Beyond sign x) (right : Beyond sign y) : Missing (x - y) := by
  rcases left with missing | infinite
  · exact missing.sub_left y
  · rw [Missing, unpack_sub, infinite]
    rcases right with missing | same
    · rw [missing]
      cases sign with
      | negative | positive => rfl
    · rw [same]
      cases sign with
      | negative | positive => rfl

theorem square (beyond : Beyond sign x) : Beyond .positive (Scalar.square x) := by
  rcases beyond with missing | infinite
  · exact Or.inl missing.square
  · apply of_unpack (unpack_mul x x)
    rw [infinite]
    cases sign with
    | negative | positive => exact Or.inr rfl

theorem sqrt (beyond : Beyond .positive x) : Beyond .positive (Scalar.sqrt x) := by
  rcases beyond with missing | infinite
  · exact Or.inl missing.sqrt
  · apply of_unpack (unpack_sqrt x)
    rw [infinite]
    exact Or.inr rfl

theorem min_ten (beyond : Beyond .positive x) : Scalar.min x 10 = 10 := by
  rcases beyond with missing | infinite
  · exact missing.min 10
  · have test : Scalar.isNaN x = false := by
      rw [isNaN_eq, infinite]
      rfl
    have smaller : Scalar.lt 10 x = true := by
      rw [lt_eq, infinite]
      rfl
    have known : Scalar.isNaN (10 : Float) = false := rfl
    simp only [Scalar.min, test, known, smaller, Bool.false_eq_true, if_false, if_true]

theorem foldl (beyond : Beyond sign x) (values : List Float) :
    Beyond sign (values.foldl (fun sum value => sum + value) x) := by
  induction values generalizing x with
  | nil => exact beyond
  | cons first rest ih => exact ih (beyond.add_left first)

/-- A sum never comes back from a term beyond the finite ones. -/
theorem total (beyond : Beyond sign x) (values : List Float) (member : x ∈ values) :
    Beyond sign (Scalar.total values) := by
  rw [Scalar.total]
  generalize (0 : Float) = start
  induction values generalizing start with
  | nil => cases member
  | cons first rest ih =>
    rcases List.mem_cons.mp member with rfl | later
    · exact (beyond.add_right start).foldl rest
    · exact ih later (start + first)

end Beyond

theorem missing_of_beyond {x : Float} (below : Beyond .negative x) (above : Beyond .positive x) :
    Missing x := by
  rcases below with missing | infinite
  · exact missing
  · rcases above with missing | other
    · exact missing
    · rw [infinite] at other
      cases other

theorem Missing.total {x : Float} (missing : Missing x) (values : List Float)
    (member : x ∈ values) : Missing (Scalar.total values) :=
  missing_of_beyond (Beyond.total (Or.inl missing) values member)
    (Beyond.total (Or.inl missing) values member)

theorem Missing.add_left {x : Float} (missing : Missing x) (y : Float) : Missing (x + y) :=
  missing_of_beyond (Beyond.add_left (Or.inl missing) y) (Beyond.add_left (Or.inl missing) y)

theorem Missing.add_right {y : Float} (missing : Missing y) (x : Float) : Missing (x + y) :=
  missing_of_beyond (Beyond.add_right (Or.inl missing) x) (Beyond.add_right (Or.inl missing) x)

/-! ## Quotients -/

def Unsigned : UnpackedFloat → Prop
  | .notANumber => True
  | .infinity sign => sign = .positive
  | .zero sign => sign = .positive
  | .finite sign _ _ _ => sign = .positive

theorem unsigned_roundWithAccuracy (mantissa : Nat) (exponent : Int)
    (accuracy : UnpackedFloat.Accuracy) :
    Unsigned (UnpackedFloat.roundWithAccuracy Format.binary64 .positive mantissa exponent
      accuracy) := by
  simp only [UnpackedFloat.roundWithAccuracy]
  split
  · rfl
  · rfl

theorem unsigned_unpack_packComponents (exponent : BitVec 11) (mantissa : BitVec 52) :
    Unsigned (UnpackedFloat.unpack Format.binary64
      (UnpackedFloat.packComponents Format.binary64 .positive exponent mantissa)) := by
  have sign : UnpackedFloat.Sign.ofBitVec (UnpackedFloat.unpackSign
      (UnpackedFloat.packComponents Format.binary64 .positive exponent mantissa)) = .positive := by
    rw [UnpackedFloat.unpackSign_packComponents]
    rfl
  simp only [UnpackedFloat.unpack, sign]
  split
  · split
    · rfl
    · trivial
  · split
    · split
      · rfl
      · rfl
    · rfl

theorem Unsigned.pack {u : UnpackedFloat} (unsigned : Unsigned u) :
    Unsigned (Float.Model.pack u).unpack := by
  cases u with
  | notANumber => exact unpack_pack_missing ▸ trivial
  | infinity sign =>
    rw [unpack_pack_infinity]
    exact unsigned
  | zero sign =>
    rw [unpack_pack_zero]
    exact unsigned
  | finite sign mantissa exponent positive =>
    cases unsigned
    change Unsigned (UnpackedFloat.unpack Format.binary64 (UnpackedFloat.pack Format.binary64 _))
    simp only [UnpackedFloat.pack]
    split
    · exact unsigned_unpack_packComponents _ _
    · split
      · exact unsigned_unpack_packComponents _ _
      · exact unsigned_unpack_packComponents _ _

theorem unsigned_mul {x y : UnpackedFloat} (left : Unsigned x) (right : Unsigned y) :
    Unsigned (UnpackedFloat.mul Format.binary64 x y) := by
  cases x with
  | notANumber => trivial
  | infinity _ | zero _ | finite _ _ _ _ =>
    cases left
    cases y with
    | notANumber => trivial
    | infinity _ | zero _ | finite _ _ _ _ =>
      cases right
      first
        | trivial
        | rfl
        | exact unsigned_roundWithAccuracy _ _ _

theorem unsigned_div {x y : UnpackedFloat} (left : Unsigned x) (right : Unsigned y) :
    Unsigned (UnpackedFloat.div Format.binary64 x y) := by
  cases x with
  | notANumber => trivial
  | infinity _ | zero _ | finite _ _ _ _ =>
    cases left
    cases y with
    | notANumber => trivial
    | infinity _ | zero _ | finite _ _ _ _ =>
      cases right
      first
        | trivial
        | rfl
        | exact unsigned_roundWithAccuracy _ _ _

theorem unsigned_ofScientific (mantissa : Nat) (exponent : Int) :
    Unsigned (UnpackedFloat.ofScientific Format.binary64 mantissa exponent) := by
  simp only [UnpackedFloat.ofScientific]
  split
  · rfl
  · split
    · rfl
    · split
      · rfl
      · split
        · exact unsigned_mul rfl rfl
        · exact unsigned_div rfl rfl

theorem unsigned_ofUInt64 (word : UInt64) :
    Unsigned (UnpackedFloat.ofUInt64 Format.binary64 word) := by
  simp only [UnpackedFloat.ofUInt64, UnpackedFloat.ofNat, UnpackedFloat.ofInt,
    UnpackedFloat.normalize]
  split
  · rename_i negative
    rw [Int.compare_eq_lt] at negative
    omega
  · rfl
  · exact unsigned_roundWithAccuracy _ _ _

theorem unsigned_ofNat (n : Nat) : Unsigned (Scalar.ofNat n : Float).toModel.unpack := by
  have one : Float.exactlyRepresentablePowersOfTen[0] = 1 := rfl
  change Unsigned (Float.ofScientific n false 0).toModel.unpack
  rw [Float.ofScientific]
  split
  · apply Unsigned.pack
    rw [one]
    exact unsigned_mul (unsigned_ofUInt64 _).pack rfl
  · exact (unsigned_ofScientific n _).pack

namespace Beyond

variable {sign : UnpackedFloat.Sign} {x y : Float}

theorem div (beyond : Beyond sign x) (unsigned : Unsigned y.toModel.unpack) :
    Beyond sign (x / y) := by
  apply of_unpack (unpack_div x y)
  rcases beyond with missing | infinite
  · rw [missing]
    exact Or.inl rfl
  · rw [infinite]
    cases kind : y.toModel.unpack with
    | notANumber | infinity other => exact Or.inl rfl
    | zero other | finite other mantissa exponent positive =>
      rw [kind] at unsigned
      cases unsigned
      cases sign with
      | negative | positive => exact Or.inr rfl

end Beyond

end Double

end FactorSearch
