import FactorSearch.Proofs.Double.Order

/-!
# Signs of doubles

Rounding keeps the sign, and where nothing is below the least exponent it keeps a number from
becoming zero.  So sums of doubles that are at least zero are at least zero, and positive once a
term is; a quotient by a positive double keeps the sign; and taking a finite double from one that is
not larger leaves nothing above zero.
-/

set_option autoImplicit false

namespace FactorSearch

namespace Double

open Float.Model

/-! ## Rounding keeps what is not nothing -/

theorem shiftRight_mantissa (m : UnpackedFloat.ExtendedMantissa) (k : Nat) :
    (m >>> k).mantissa = m.mantissa / 2 ^ k := by
  change (Nat.repeat UnpackedFloat.ExtendedMantissa.shiftRightOne k m).mantissa = _
  induction k with
  | zero => rw [Nat.pow_zero, Nat.div_one]; rfl
  | succ k ih =>
    rw [Nat.repeat, Nat.pow_succ, ← Nat.div_div_eq_div_mul, ← ih]
    rfl

theorem le_roundedMantissa (m : UnpackedFloat.ExtendedMantissa) :
    m.mantissa ≤ m.roundedMantissa := by
  rw [UnpackedFloat.ExtendedMantissa.roundedMantissa]
  unfold UnpackedFloat.Accuracy.roundToNearestEven
  split
  · exact le_rfl
  · exact le_rfl
  · exact Nat.le_add_right ..
  · exact Nat.le_succ _

/-- From the least exponent upwards the shift leaves some bits, and no more than are stored. -/
theorem shiftToTarget_bounds {m : Nat} {e : Int} (positive : 0 < m) (low : -1074 ≤ e)
    (accuracy : UnpackedFloat.Accuracy) :
    0 < (UnpackedFloat.shiftToTargetExponent Format.binary64 m e accuracy).1.mantissa ∧
      (UnpackedFloat.shiftToTargetExponent Format.binary64 m e accuracy).1.mantissa.log2 ≤ 52 ∧
      -1074 ≤ (UnpackedFloat.shiftToTargetExponent Format.binary64 m e accuracy).2 := by
  obtain ⟨below, above⟩ := (Nat.log2_eq_iff positive.ne').mp rfl
  have start : (UnpackedFloat.ExtendedMantissa.ofMantissaAndAccuracy m accuracy).mantissa = m := by
    cases accuracy with
    | exact => rfl
    | inexact order => cases order <;> rfl
  simp only [UnpackedFloat.shiftToTargetExponent, UnpackedFloat.shiftToExponent, target_eq,
    shiftRight_mantissa, start]
  generalize amount : (max ((m.log2 : Int) + e - 52) (-1074) - e).toNat = k
  have some : 2 ^ k ≤ m := le_trans (Nat.pow_le_pow_right two_pos (by omega)) below
  have left : 0 < m / 2 ^ k := Nat.div_pos some (Nat.two_pow_pos k)
  have short : m / 2 ^ k < 2 ^ 53 := by
    rw [Nat.div_lt_iff_lt_mul (Nat.two_pow_pos k), ← Nat.pow_add]
    exact lt_of_lt_of_le above (Nat.pow_le_pow_right two_pos (by omega))
  have size := (Nat.log2_lt left.ne').mpr short
  omega

theorem roundWithAccuracy_bounds (sign : UnpackedFloat.Sign) {m : Nat} {e : Int}
    (positive : 0 < m) (low : -1074 ≤ e) (accuracy : UnpackedFloat.Accuracy) :
    ∃ (n : Nat) (i : Int) (some : 0 < n),
      UnpackedFloat.roundWithAccuracy Format.binary64 sign m e accuracy = .finite sign n i some ∧
        n.log2 ≤ 52 ∧ -1074 ≤ i := by
  obtain ⟨first, _, above⟩ := shiftToTarget_bounds positive low accuracy
  obtain ⟨second, short, within⟩ :=
    shiftToTarget_bounds (first.trans_le (le_roundedMantissa _)) above .exact
  refine ⟨_, _, second, ?_, short, within⟩
  simp only [UnpackedFloat.roundWithAccuracy]
  rw [dif_neg second.ne']

theorem round_bounds (sign : UnpackedFloat.Sign) {m : Nat} {e : Int} (positive : 0 < m)
    (low : -1074 ≤ e) :
    ∃ (n : Nat) (i : Int) (some : 0 < n),
      UnpackedFloat.round Format.binary64 sign m e = .finite sign n i some ∧
        n.log2 ≤ 52 ∧ -1074 ≤ i := by
  simp only [UnpackedFloat.round, UnpackedFloat.decreaseExponent, target_eq]
  refine roundWithAccuracy_bounds sign ?_ (by omega) .exact
  rw [Nat.shiftLeft_eq]
  exact Nat.mul_pos positive (Nat.two_pow_pos _)

theorem exponent_low {x : Float} {sign : UnpackedFloat.Sign} {m : Nat} {e : Int}
    {positive : 0 < m} (stored : x.toModel.unpack = .finite sign m e positive) : -1074 ≤ e := by
  have target := (canonical_of_unpack stored).target
  omega

/-! ## Signs through packing -/

/-- The number is there and carries the sign, or is a zero of any sign. -/
def Weak (sign : UnpackedFloat.Sign) : UnpackedFloat → Prop
  | .notANumber => False
  | .infinity other => other = sign
  | .zero _ => True
  | .finite other _ _ _ => other = sign

/-- The number is there, carries the sign and is no zero. -/
def Strict (sign : UnpackedFloat.Sign) : UnpackedFloat → Prop
  | .notANumber => False
  | .infinity other => other = sign
  | .zero _ => False
  | .finite other _ _ _ => other = sign

theorem Strict.weak {sign : UnpackedFloat.Sign} {u : UnpackedFloat} (strict : Strict sign u) :
    Weak sign u := by
  cases u with
  | notANumber | zero => exact strict.elim
  | infinity | finite => exact strict

theorem weak_packComponents (sign : UnpackedFloat.Sign) {exponent : BitVec 11}
    (below : exponent ≠ -1#11) (mantissa : BitVec 52) :
    Weak sign (UnpackedFloat.unpack Format.binary64
      (UnpackedFloat.packComponents Format.binary64 sign exponent mantissa)) := by
  simp only [UnpackedFloat.unpack, UnpackedFloat.unpackExponent_packComponents,
    UnpackedFloat.unpackMantissa_packComponents, UnpackedFloat.unpackSign_packComponents,
    UnpackedFloat.Sign.ofBitVec_toBitVec]
  rw [if_neg below]
  split
  · split
    · trivial
    · rfl
  · rfl

theorem strict_packComponents (sign : UnpackedFloat.Sign) {exponent : BitVec 11}
    (below : exponent ≠ -1#11) {mantissa : BitVec 52}
    (some : exponent ≠ 0#11 ∨ mantissa ≠ 0#52) :
    Strict sign (UnpackedFloat.unpack Format.binary64
      (UnpackedFloat.packComponents Format.binary64 sign exponent mantissa)) := by
  simp only [UnpackedFloat.unpack, UnpackedFloat.unpackExponent_packComponents,
    UnpackedFloat.unpackMantissa_packComponents, UnpackedFloat.unpackSign_packComponents,
    UnpackedFloat.Sign.ofBitVec_toBitVec]
  rw [if_neg below]
  split
  · rename_i none
    split
    · rename_i nothing
      exact absurd some (by simp [none, nothing])
    · rfl
  · rfl

theorem exponent_stored {biased : Nat} (inside : ¬ 2 ^ Format.binary64.exponentBits ≤ biased + 1) :
    (BitVec.ofNat 11 biased).toNat = biased ∧ BitVec.ofNat 11 biased ≠ -1#11 := by
  change ¬ 2048 ≤ _ at inside
  have kept : (BitVec.ofNat 11 biased).toNat = biased := by
    rw [BitVec.toNat_ofNat, Nat.mod_eq_of_lt (by omega)]
  refine ⟨kept, fun top => ?_⟩
  have same := congrArg BitVec.toNat top
  rw [kept] at same
  change _ = 2047 at same
  omega

theorem Weak.pack {sign : UnpackedFloat.Sign} {u : UnpackedFloat} (weak : Weak sign u) :
    Weak sign (Float.Model.pack u).unpack := by
  cases u with
  | notANumber => exact weak.elim
  | infinity other =>
    rw [unpack_pack_infinity]
    exact weak
  | zero other =>
    rw [unpack_pack_zero]
    exact weak
  | finite other m e positive =>
    cases weak
    change Weak _ (UnpackedFloat.unpack Format.binary64 (UnpackedFloat.pack Format.binary64 _))
    simp only [UnpackedFloat.pack]
    split
    · change Weak _ (Float.Model.pack (.infinity _)).unpack
      rw [unpack_pack_infinity]
      rfl
    · rename_i inside
      split
      · exact weak_packComponents _ (exponent_stored inside).2 _
      · exact weak_packComponents _ (by decide) _

/-- What rounding leaves is not lost in packing: a long mantissa is stored with an exponent, a short
one has a bit that is stored. -/
theorem strict_pack {sign : UnpackedFloat.Sign} {m : Nat} {e : Int} {positive : 0 < m}
    (short : m.log2 ≤ 52) (low : -1074 ≤ e) :
    Strict sign (pack (.finite sign m e positive)).unpack := by
  change Strict _ (UnpackedFloat.unpack Format.binary64 (UnpackedFloat.pack Format.binary64 _))
  have bias : (Format.binary64.exponentBias : Int) = 1023 := rfl
  have width : Format.binary64.mantissaBits = 53 := rfl
  simp only [UnpackedFloat.pack, bias, width]
  split
  · change Strict _ (pack (.infinity _)).unpack
    rw [unpack_pack_infinity]
    rfl
  · rename_i inside
    split
    · obtain ⟨kept, below⟩ := exponent_stored inside
      refine strict_packComponents _ below (Or.inl fun bottom => ?_)
      have same := congrArg BitVec.toNat bottom
      rw [kept] at same
      change (e + 1023 + ((52 : Nat) : Int)).toNat = 0 at same
      omega
    · refine strict_packComponents _ (by decide) (Or.inr fun nothing => ?_)
      have stored : m < 2 ^ 52 := (Nat.log2_lt positive.ne').mp (by omega)
      have same := congrArg BitVec.toNat nothing
      change (BitVec.ofNat 52 m).toNat = 0 at same
      rw [BitVec.toNat_ofNat, Nat.mod_eq_of_lt stored] at same
      omega

theorem weak_roundWithAccuracy (sign : UnpackedFloat.Sign) (m : Nat) (e : Int)
    (accuracy : UnpackedFloat.Accuracy) :
    Weak sign (UnpackedFloat.roundWithAccuracy Format.binary64 sign m e accuracy) := by
  simp only [UnpackedFloat.roundWithAccuracy]
  split
  · trivial
  · rfl

theorem strict_normalize (zero : UnpackedFloat.Sign) {n e : Int} (positive : 0 < n)
    (low : -1074 ≤ e) :
    Strict .positive (pack (UnpackedFloat.normalize Format.binary64 n e zero)).unpack := by
  rw [UnpackedFloat.normalize, Int.compare_eq_gt.mpr positive]
  obtain ⟨m, i, some, rounded, short, within⟩ :=
    round_bounds .positive (m := n.toNat) (e := e) (by omega) low
  dsimp only
  rw [rounded]
  exact strict_pack short within

theorem weak_normalize (zero : UnpackedFloat.Sign) {n : Int} (e : Int) (nonpositive : n ≤ 0) :
    Weak .negative (UnpackedFloat.normalize Format.binary64 n e zero) := by
  rcases Int.lt_or_eq_of_le nonpositive with below | rfl
  · rw [UnpackedFloat.normalize, Int.compare_eq_lt.mpr below]
    exact weak_roundWithAccuracy ..
  · exact trivial

/-! ## Tests against zero -/

theorem unpack_zero : (0 : Float).toModel.unpack = .zero .positive := rfl

theorem nonneg_iff (x : Float) : Scalar.le 0 x = true ↔ Weak .positive x.toModel.unpack := by
  rw [le_eq, unpack_zero]
  cases x.toModel.unpack with
  | notANumber | zero => simp [UnpackedFloat.le, UnpackedFloat.compare, Weak]
  | infinity sign | finite sign =>
    cases sign with
    | positive | negative => simp [UnpackedFloat.le, UnpackedFloat.compare, Weak]

theorem nonpos_iff (x : Float) : Scalar.le x 0 = true ↔ Weak .negative x.toModel.unpack := by
  rw [le_eq, unpack_zero]
  cases x.toModel.unpack with
  | notANumber | zero => simp [UnpackedFloat.le, UnpackedFloat.compare, Weak]
  | infinity sign | finite sign =>
    cases sign with
    | positive | negative => simp [UnpackedFloat.le, UnpackedFloat.compare, Weak]

theorem pos_iff (x : Float) : Scalar.lt 0 x = true ↔ Strict .positive x.toModel.unpack := by
  rw [lt_eq, unpack_zero]
  cases x.toModel.unpack with
  | notANumber | zero => simp [UnpackedFloat.lt, UnpackedFloat.compare, Strict]
  | infinity sign | finite sign =>
    cases sign with
    | positive | negative => simp [UnpackedFloat.lt, UnpackedFloat.compare, Strict]

theorem nonneg_of_pos {x : Float} (positive : Scalar.lt 0 x = true) : Scalar.le 0 x = true :=
  (nonneg_iff x).mpr ((pos_iff x).mp positive).weak

protected theorem zero_lt_one : Scalar.lt (0 : Float) 1 = true := by decide +kernel

/-! ## Sums -/

theorem unpacked_add_comm (u v : UnpackedFloat) :
    UnpackedFloat.add Format.binary64 u v = UnpackedFloat.add Format.binary64 v u := by
  cases u with
  | notANumber =>
    cases v with
    | notANumber | infinity | zero | finite => rfl
  | infinity sign | zero sign =>
    cases v with
    | notANumber | finite => rfl
    | infinity other | zero other =>
      cases sign with
      | positive | negative =>
        cases other with
        | positive | negative => rfl
  | finite sign m e positive =>
    cases v with
    | notANumber | infinity | zero => rfl
    | finite other n i large =>
      simp only [UnpackedFloat.add, min_comm e i]
      rw [Int.add_comm]

protected theorem add_comm (x y : Float) : x + y = y + x := by
  apply eq_of_unpack
  rw [unpack_add, unpack_add, unpacked_add_comm]

theorem strict_add {x y : Float} (left : Strict .positive x.toModel.unpack)
    (right : Weak .positive y.toModel.unpack) : Strict .positive (x + y).toModel.unpack := by
  have endless : Strict .positive (pack (.infinity .positive)).unpack := rfl
  rw [unpack_add]
  cases first : x.toModel.unpack with
  | notANumber | zero =>
    rw [first] at left
    exact left.elim
  | infinity sign =>
    rw [first] at left
    cases left
    cases second : y.toModel.unpack with
    | notANumber =>
      rw [second] at right
      exact right.elim
    | infinity other =>
      rw [second] at right
      cases right
      exact endless
    | zero other | finite other n i large => exact endless
  | finite sign m e positive =>
    rw [first] at left
    cases second : y.toModel.unpack with
    | notANumber =>
      rw [second] at right
      exact right.elim
    | infinity other =>
      rw [second] at right
      cases right
      exact endless
    | zero other =>
      dsimp only [UnpackedFloat.add]
      rw [← first, unpack_pack_unpack, first]
      exact left
    | finite other n i large =>
      rw [second] at right
      cases left
      cases right
      have low := exponent_low first
      have lower := exponent_low second
      apply strict_normalize
      · simp only [UnpackedFloat.Sign.apply, Nat.shiftLeft_eq]
        have some := Nat.mul_pos positive (Nat.two_pow_pos (e - min e i).toNat)
        omega
      · omega

theorem add_pos_left {x y : Float} (left : Scalar.lt 0 x = true) (right : Scalar.le 0 y = true) :
    Scalar.lt 0 (x + y) = true := by
  rw [pos_iff] at left ⊢
  rw [nonneg_iff] at right
  exact strict_add left right

theorem add_pos_right {x y : Float} (left : Scalar.le 0 x = true) (right : Scalar.lt 0 y = true) :
    Scalar.lt 0 (x + y) = true := by
  rw [Double.add_comm]
  exact add_pos_left right left

theorem pos_or_zero {x : Float} (nonneg : Scalar.le 0 x = true) :
    Scalar.lt 0 x = true ∨ ∃ sign, x.toModel.unpack = .zero sign := by
  rw [nonneg_iff] at nonneg
  rw [pos_iff]
  cases kind : x.toModel.unpack with
  | notANumber =>
    rw [kind] at nonneg
    exact nonneg.elim
  | zero sign => exact Or.inr ⟨sign, rfl⟩
  | infinity sign | finite sign m e positive =>
    rw [kind] at nonneg
    exact Or.inl nonneg

protected theorem add_nonneg {x y : Float} (left : Scalar.le 0 x = true)
    (right : Scalar.le 0 y = true) : Scalar.le 0 (x + y) = true := by
  rcases pos_or_zero left with some | ⟨sign, first⟩
  · exact nonneg_of_pos (add_pos_left some right)
  · rcases pos_or_zero right with some | ⟨other, second⟩
    · exact nonneg_of_pos (add_pos_right left some)
    · rw [nonneg_iff, unpack_add, first, second]
      cases sign with
      | positive | negative =>
        cases other with
        | positive | negative => exact trivial

protected theorem sum_nonneg {n : Nat} (f : Fin n → Float)
    (nonneg : ∀ i, Scalar.le 0 (f i) = true) : Scalar.le 0 (Tensor.sum f) = true := by
  induction n with
  | zero =>
    rw [Tensor.sum_zero]
    rfl
  | succ n ih =>
    rw [Tensor.sum_succ]
    exact Double.add_nonneg (ih (fun i => f i.castSucc) fun i => nonneg i.castSucc)
      (nonneg (Fin.last n))

theorem sum_pos {n : Nat} (f : Fin n → Float) (nonneg : ∀ i, Scalar.le 0 (f i) = true)
    (i : Fin n) (positive : Scalar.lt 0 (f i) = true) : Scalar.lt 0 (Tensor.sum f) = true := by
  induction n with
  | zero => exact i.elim0
  | succ n ih =>
    rw [Tensor.sum_succ]
    cases i using Fin.lastCases with
    | last => exact add_pos_right (Double.sum_nonneg _ fun j => nonneg j.castSucc) positive
    | cast i =>
      have before := ih (fun j => f j.castSucc) (fun j => nonneg j.castSucc) i positive
      exact add_pos_left before (nonneg _)

theorem missing_sum {n : Nat} (f : Fin n → Float) (i : Fin n) (missing : Missing (f i)) :
    Missing (Tensor.sum f) := by
  induction n with
  | zero => exact i.elim0
  | succ n ih =>
    rw [Tensor.sum_succ]
    cases i using Fin.lastCases with
    | last => exact missing.add_right _
    | cast i => exact (ih (fun j => f j.castSucc) i missing).add_left _

/-! ## Differences -/

theorem Canonical.value_le {m n : Nat} {e i : Int} (left : Canonical m e) (right : Canonical n i)
    (order : e < i ∨ e = i ∧ m ≤ n) : (m : ℚ) * 2 ^ e ≤ n * 2 ^ i := by
  have unit : (0 : ℚ) < 2 ^ e := zpow_pos two_pos e
  rcases order with below | ⟨rfl, most⟩
  · have long : n.log2 = 52 := by
      have first := left.target
      have second := right.target
      omega
    have large : 2 ^ 52 ≤ n := by
      rw [← long]
      exact Nat.log2_self_le right.positive.ne'
    have steps : (2 : ℚ) ^ i = 2 ^ (i - e).toNat * 2 ^ e := two_zpow_eq _ (by omega)
    have factor : 2 ^ 1 ≤ 2 ^ (i - e).toNat := Nat.pow_le_pow_right two_pos (by omega)
    have fits : m ≤ n * 2 ^ (i - e).toNat := by
      calc m ≤ 2 ^ 52 * 2 ^ 1 := by rw [← Nat.pow_add]; exact left.lt.le
        _ ≤ n * 2 ^ (i - e).toNat := Nat.mul_le_mul large factor
    rw [steps, ← mul_assoc]
    exact mul_le_mul_of_nonneg_right (by exact_mod_cast fits) unit.le
  · exact mul_le_mul_of_nonneg_right (Nat.cast_le.mpr most) unit.le

theorem value_le_of_place {sign other : UnpackedFloat.Sign} {m n : Nat} {e i : Int}
    (left : Canonical m e) (right : Canonical n i)
    (order : placeOf (.finite sign m e left.positive) ≤
      placeOf (.finite other n i right.positive)) :
    (sign.apply (m : Int) : ℚ) * 2 ^ e ≤ other.apply (n : Int) * 2 ^ i := by
  have first : (0 : ℚ) ≤ m * 2 ^ e := mul_nonneg (Nat.cast_nonneg m) (zpow_pos two_pos e).le
  have second : (0 : ℚ) ≤ n * 2 ^ i := mul_nonneg (Nat.cast_nonneg n) (zpow_pos two_pos i).le
  cases sign with
  | positive =>
    cases other with
    | positive =>
      simp only [placeOf, Prod.Lex.toLex_le_toLex, lt_self_iff_false, false_or, true_and,
        Nat.cast_le] at order
      exact left.value_le right order
    | negative => exact absurd order (by simp [placeOf, Prod.Lex.toLex_le_toLex])
  | negative =>
    cases other with
    | positive =>
      simp only [UnpackedFloat.Sign.apply, Int.cast_neg, Int.cast_natCast, neg_mul]
      linarith
    | negative =>
      simp only [placeOf, Prod.Lex.toLex_le_toLex, lt_self_iff_false, false_or, true_and,
        neg_lt_neg_iff, neg_inj, neg_le_neg_iff, Nat.cast_le] at order
      have reversed := right.value_le left (order.imp_right fun same => ⟨same.1.symm, same.2⟩)
      simp only [UnpackedFloat.Sign.apply, Int.cast_neg, Int.cast_natCast, neg_mul]
      exact neg_le_neg reversed

theorem weak_sub {x t : Float} (finite : Scalar.isFinite t = true)
    (below : Scalar.le x t = true) : Weak .negative (x - t).toModel.unpack := by
  obtain ⟨present, _, order⟩ := (le_iff_place x t).mp below
  rw [isNaN_eq_false_iff] at present
  rw [isFinite_eq] at finite
  rw [unpack_sub]
  apply Weak.pack
  cases second : t.toModel.unpack with
  | notANumber | infinity =>
    rw [second] at finite
    cases finite
  | zero other =>
    rw [second] at order
    cases first : x.toModel.unpack with
    | notANumber => exact absurd first present
    | zero sign =>
      dsimp only [UnpackedFloat.sub]
      split
      · trivial
      · trivial
    | infinity sign | finite sign m e positive =>
      rw [first] at order
      cases sign with
      | negative => rfl
      | positive => exact absurd order (by simp [placeOf, Prod.Lex.toLex_le_toLex])
  | finite other n i large =>
    rw [second] at order
    cases first : x.toModel.unpack with
    | notANumber => exact absurd first present
    | infinity sign =>
      rw [first] at order
      cases sign with
      | negative => rfl
      | positive =>
        cases other with
        | negative | positive => exact absurd order (by simp [placeOf, Prod.Lex.toLex_le_toLex])
    | zero sign =>
      rw [first] at order
      cases other with
      | negative => exact absurd order (by simp [placeOf, Prod.Lex.toLex_le_toLex])
      | positive => rfl
    | finite sign m e positive =>
      rw [first] at order
      have values := value_le_of_place (canonical_of_unpack first) (canonical_of_unpack second)
        order
      have aligned := apply_shiftLeft sign m e (min e i) (min_le_left ..)
      have lowered := apply_shiftLeft other n i (min e i) (min_le_right ..)
      rw [← aligned, ← lowered] at values
      have integers := le_of_mul_le_mul_right values (zpow_pos two_pos (min e i))
      exact weak_normalize _ _ (Int.sub_nonpos_of_le (Int.cast_le.mp integers))

protected theorem sub_nonpos {x t : Float} (finite : Scalar.isFinite t = true)
    (below : Scalar.le x t = true) : Scalar.le (x - t) 0 = true :=
  (nonpos_iff _).mpr (weak_sub finite below)

theorem sub_self_same {x : Float} (finite : Scalar.isFinite x = true) :
    Scalar.same (x - x) 0 = true := by
  have present := (Scalar.Ordered.le_iff_of_finite finite finite).mpr le_rfl
  have weak := weak_sub finite present
  rcases null_sub_self finite with missing | ⟨sign, zero⟩
  · rw [missing] at weak
    exact weak.elim
  · rw [same_eq, zero, unpack_zero]
    cases sign with
    | positive | negative => rfl

/-! ## Quotients -/

protected theorem div_nonneg {x y : Float} (finite : Scalar.isFinite x = true)
    (nonneg : Scalar.le 0 x = true) (positive : Scalar.lt 0 y = true) :
    Scalar.le 0 (x / y) = true := by
  rw [nonneg_iff] at nonneg ⊢
  rw [pos_iff] at positive
  rw [isFinite_eq] at finite
  rw [unpack_div]
  apply Weak.pack
  cases second : y.toModel.unpack with
  | notANumber | zero =>
    rw [second] at positive
    exact positive.elim
  | infinity other | finite other n i large =>
    cases first : x.toModel.unpack with
    | notANumber | infinity =>
      rw [first] at finite
      cases finite
    | zero sign => trivial
    | finite sign m e some =>
      rw [first] at nonneg
      rw [second] at positive
      cases nonneg
      cases positive
      first
        | trivial
        | exact weak_roundWithAccuracy ..

theorem zero_div_of_pos {y : Float} (positive : Scalar.lt 0 y = true) : (0 : Float) / y = 0 := by
  rw [pos_iff] at positive
  apply eq_of_unpack
  rw [unpack_div, unpack_zero]
  cases kind : y.toModel.unpack with
  | notANumber | zero =>
    rw [kind] at positive
    exact positive.elim
  | infinity sign | finite sign m e some =>
    rw [kind] at positive
    cases positive
    exact unpack_pack_zero .positive

theorem Missing.div_right {y : Float} (missing : Missing y) (x : Float) : Missing (x / y) := by
  rw [Missing] at missing
  rw [Missing, unpack_div, missing]
  cases x.toModel.unpack with
  | notANumber | infinity | zero | finite => exact unpack_pack_missing

end Double

end FactorSearch
