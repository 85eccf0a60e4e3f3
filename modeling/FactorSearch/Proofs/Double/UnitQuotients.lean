import FactorSearch.Proofs.Double.Signs

/-!
# Quotients up to one

A double from one on, divided by one that is not smaller nor beyond the whole numbers that doubles
count, gives a double above zero and at most one: rounding does not pass a power of two.
-/

set_option autoImplicit false

namespace FactorSearch

namespace Double

open Float.Model

theorem roundedMantissa_le (m : UnpackedFloat.ExtendedMantissa) :
    m.roundedMantissa ≤ m.mantissa + 1 := by
  rw [UnpackedFloat.ExtendedMantissa.roundedMantissa]
  unfold UnpackedFloat.Accuracy.roundToNearestEven
  split
  · exact Nat.le_succ _
  · exact Nat.le_succ _
  · omega
  · exact le_rfl

/-- A mantissa that is long enough is cut to the bits that are stored. -/
theorem shiftToTarget_long {m : Nat} {e : Int} (long : 52 ≤ m.log2)
    (low : -1074 ≤ (m.log2 : Int) + e - 52) (accuracy : UnpackedFloat.Accuracy) :
    (UnpackedFloat.shiftToTargetExponent Format.binary64 m e accuracy).1.mantissa =
        m / 2 ^ (m.log2 - 52) ∧
      (UnpackedFloat.shiftToTargetExponent Format.binary64 m e accuracy).2 =
        (m.log2 : Int) + e - 52 := by
  have start : (UnpackedFloat.ExtendedMantissa.ofMantissaAndAccuracy m accuracy).mantissa = m := by
    cases accuracy with
    | exact => rfl
    | inexact order => cases order <;> rfl
  have amount : (max ((m.log2 : Int) + e - 52) (-1074) - e).toNat = m.log2 - 52 := by
    omega
  simp only [UnpackedFloat.shiftToTargetExponent, UnpackedFloat.shiftToExponent, target_eq,
    shiftRight_mantissa, start, amount, true_and]
  omega

theorem ne_zero_of_log2 {m : Nat} (some : 0 < m.log2) : m ≠ 0 := by
  rintro rfl
  simp at some

theorem cut_bounds {m : Nat} (long : 52 ≤ m.log2) :
    2 ^ 52 ≤ m / 2 ^ (m.log2 - 52) ∧ m / 2 ^ (m.log2 - 52) < 2 ^ 53 := by
  obtain ⟨below, above⟩ := (Nat.log2_eq_iff (ne_zero_of_log2 (by omega : 0 < m.log2))).mp rfl
  constructor
  · rw [Nat.le_div_iff_mul_le (Nat.two_pow_pos _), ← Nat.pow_add]
    rwa [Nat.add_sub_cancel' long]
  · rw [Nat.div_lt_iff_lt_mul (Nat.two_pow_pos _), ← Nat.pow_add]
    have bits : 53 + (m.log2 - 52) = m.log2 + 1 := by omega
    rwa [bits]

theorem roundWithAccuracy_below_one (sign : UnpackedFloat.Sign) {m : Nat} {e : Int}
    (long : 52 ≤ m.log2) (low : -1022 ≤ (m.log2 : Int) + e) (below : (m.log2 : Int) + e < 0)
    (accuracy : UnpackedFloat.Accuracy) :
    ∃ (n : Nat) (i : Int) (some : 0 < n),
      UnpackedFloat.roundWithAccuracy Format.binary64 sign m e accuracy = .finite sign n i some ∧
        n.log2 = 52 ∧ -1074 ≤ i ∧ (i < -52 ∨ i = -52 ∧ n ≤ 2 ^ 52) := by
  obtain ⟨cut, exponent⟩ := shiftToTarget_long long (e := e) (by omega) accuracy
  obtain ⟨least, most⟩ := cut_bounds long
  generalize first : UnpackedFloat.shiftToTargetExponent Format.binary64 m e accuracy = shifted
    at cut exponent
  have lower : 2 ^ 52 ≤ shifted.1.roundedMantissa := by
    have kept := le_roundedMantissa shifted.1
    omega
  have upper : shifted.1.roundedMantissa ≤ 2 ^ 53 := by
    have raised := roundedMantissa_le shifted.1
    omega
  generalize rounded : shifted.1.roundedMantissa = r at lower upper
  have again : 52 ≤ r.log2 := (Nat.le_log2 (by omega)).mpr lower
  obtain ⟨final, place⟩ := shiftToTarget_long again (e := shifted.2) (by omega) .exact
  obtain ⟨some, short⟩ := cut_bounds again
  refine ⟨r / 2 ^ (r.log2 - 52), (r.log2 : Int) + shifted.2 - 52,
    (Nat.two_pow_pos 52).trans_le some, ?_, ?_, by omega, ?_⟩
  · simp only [UnpackedFloat.roundWithAccuracy, first, rounded, final, place]
    rw [dif_neg ((Nat.two_pow_pos 52).trans_le some).ne']
  · exact (Nat.log2_eq_iff ((Nat.two_pow_pos 52).trans_le some).ne').mpr ⟨some, short⟩
  -- rounding up to the next power of two takes one more bit, which is cut off again
  · rcases Nat.lt_or_eq_of_le upper with inside | rfl
    · have size := (Nat.log2_lt (by omega : r ≠ 0)).mpr inside
      omega
    · rw [Nat.log2_two_pow]
      omega

/-- From one up to the largest whole number that doubles count, stored mantissas are full. -/
theorem normal_of_bounds {m : Nat} {e : Int} (canonical : Canonical m e)
    (least : (1 : ℚ) ≤ m * 2 ^ e) (most : (m : ℚ) * 2 ^ e ≤ 2 ^ 53) :
    m.log2 = 52 ∧ -52 ≤ e ∧ e ≤ 1 := by
  obtain ⟨below, above⟩ := (Nat.log2_eq_iff canonical.positive.ne').mp rfl
  have unit : (0 : ℚ) < 2 ^ e := zpow_pos two_pos e
  have reached : (0 : Int) < m.log2 + 1 + e := by
    have more : (2 : ℚ) ^ (0 : Int) < 2 ^ ((m.log2 : Int) + 1 + e) := by
      rw [zpow_zero, zpow_add₀ two_ne_zero]
      refine least.trans_lt (mul_lt_mul_of_pos_right ?_ unit)
      exact_mod_cast above
    exact (zpow_lt_zpow_iff_right₀ one_lt_two).mp more
  have held : (m.log2 : Int) + e ≤ 53 := by
    have fewer : (2 : ℚ) ^ ((m.log2 : Int) + e) ≤ 2 ^ (53 : Int) := by
      rw [zpow_add₀ two_ne_zero]
      refine (mul_le_mul_of_nonneg_right ?_ unit.le).trans most
      exact_mod_cast below
    exact (zpow_le_zpow_iff_right₀ one_lt_two).mp fewer
  have target := canonical.target
  omega

theorem divCore_full {m n : Nat} {e i : Int} (long : m.log2 = 52) (full : n.log2 = 52)
    (low : -1000 ≤ e - i) :
    UnpackedFloat.divCore Format.binary64 m e n i =
      (m * 2 ^ 53 / n, e - i - 53, UnpackedFloat.accuracyOfFraction (m * 2 ^ 53 % n) n) := by
  have aim : min (e - i) (Format.binary64.targetExponent (totalExponent m e - totalExponent n i)) =
      e - i - 53 := by
    have bits : ((Format.binary64.mantissaBits : Nat) : Int) = 53 := rfl
    have least : Format.binary64.minExponent = -1074 := rfl
    rw [Format.targetExponent, totalExponent, totalExponent, bits, least, long, full]
    omega
  have amount : (e - i - (e - i - 53)).toNat = 53 := by omega
  simp only [UnpackedFloat.divCore, aim, amount, Nat.shiftLeft_eq]

theorem long_quotient {m n : Nat} (long : m.log2 = 52) (full : n.log2 = 52) :
    52 ≤ (m * 2 ^ 53 / n).log2 := by
  have divisor : n ≠ 0 := ne_zero_of_log2 (by omega)
  obtain ⟨below, _⟩ := (Nat.log2_eq_iff (ne_zero_of_log2 (by omega))).mp long
  obtain ⟨_, above⟩ := (Nat.log2_eq_iff divisor).mp full
  have quotient : 2 ^ 52 ≤ m * 2 ^ 53 / n := by
    rw [Nat.le_div_iff_mul_le (Nat.pos_of_ne_zero divisor)]
    exact Nat.mul_le_mul below above.le
  exact (Nat.le_log2 ((Nat.two_pow_pos 52).trans_le quotient).ne').mpr quotient

/-- What the division of mantissas leaves stands for less than one. -/
theorem quotient_below_one {m n : Nat} {e i : Int} (some : 0 < m * 2 ^ 53 / n)
    (below : (m : ℚ) * 2 ^ e < n * 2 ^ i) :
    ((m * 2 ^ 53 / n).log2 : Int) + (e - i - 53) < 0 := by
  have unit (j : Int) : (0 : ℚ) < 2 ^ j := zpow_pos two_pos j
  have divided : ((m * 2 ^ 53 / n : Nat) : ℚ) * n ≤ m * 2 ^ 53 := by
    exact_mod_cast Nat.div_mul_le_self (m * 2 ^ 53) n
  have scaled : ((m * 2 ^ 53 / n : Nat) : ℚ) * 2 ^ (e - i - 53) * (n * 2 ^ i) < n * 2 ^ i := by
    have steps : (2 : ℚ) ^ e = 2 ^ 53 * (2 ^ (e - i - 53) * 2 ^ i) := by
      rw [← zpow_add₀ two_ne_zero]
      exact two_zpow_eq 53 (by omega)
    calc ((m * 2 ^ 53 / n : Nat) : ℚ) * 2 ^ (e - i - 53) * (n * 2 ^ i)
        = ((m * 2 ^ 53 / n : Nat) : ℚ) * n * (2 ^ (e - i - 53) * 2 ^ i) := by ring
      _ ≤ m * 2 ^ 53 * (2 ^ (e - i - 53) * 2 ^ i) :=
          mul_le_mul_of_nonneg_right divided (mul_pos (unit _) (unit _)).le
      _ = m * 2 ^ e := by rw [steps]; ring
      _ < n * 2 ^ i := below
  have divisor : (0 : ℚ) < n * 2 ^ i :=
    (mul_nonneg (Nat.cast_nonneg m) (unit e).le).trans_lt below
  have small := (mul_lt_iff_lt_one_left divisor).mp scaled
  have power : (2 : ℚ) ^ (((m * 2 ^ 53 / n).log2 : Int) + (e - i - 53)) < 2 ^ (0 : Int) := by
    rw [zpow_add₀ two_ne_zero, zpow_zero]
    refine (mul_le_mul_of_nonneg_right ?_ (unit _).le).trans_lt small
    exact_mod_cast Nat.log2_self_le some.ne'
  exact (zpow_lt_zpow_iff_right₀ one_lt_two).mp power

theorem positive_of_value {sign : UnpackedFloat.Sign} {m : Nat} {e : Int}
    (above : (1 : ℚ) ≤ sign.apply (m : Int) * 2 ^ e) : sign = .positive := by
  cases sign with
  | positive => rfl
  | negative =>
    have product : (0 : ℚ) ≤ m * 2 ^ e := mul_nonneg (Nat.cast_nonneg m) (zpow_pos two_pos e).le
    simp only [UnpackedFloat.Sign.apply, Int.cast_neg, Int.cast_natCast, neg_mul] at above
    linarith

theorem unpack_one : (1 : Float).toModel.unpack =
    .finite .positive (2 ^ 52) (-52) (Nat.two_pow_pos 52) :=
  rfl

theorem value_one : value 1 = 1 := by
  rw [value, unpack_one, valueOf, UnpackedFloat.Sign.apply]
  norm_num

theorem le_one_of_stored {x : Float} {n : Nat} {i : Int} {some : 0 < n}
    (stored : x.toModel.unpack = .finite .positive n i some)
    (small : i < -52 ∨ i = -52 ∧ n ≤ 2 ^ 52) : Scalar.le x 1 = true := by
  have present : Scalar.isNaN x = false := by
    rw [isNaN_eq, stored]
    rfl
  refine (le_iff_place x 1).mpr ⟨present, rfl, ?_⟩
  rw [stored, unpack_one]
  simp only [placeOf, Prod.Lex.toLex_le_toLex, lt_self_iff_false, false_or, true_and]
  refine small.imp_right fun same => ⟨same.1, ?_⟩
  exact_mod_cast same.2

/-- A double from one on, divided by one that is not smaller, stays above zero and at most one. -/
theorem div_unit {x y : Float} (least : 1 ≤ value x) (order : value x ≤ value y)
    (most : value y ≤ 2 ^ 53) :
    Scalar.isFinite (x / y) = true ∧ Scalar.lt 0 (x / y) = true ∧ Scalar.le (x / y) 1 = true := by
  obtain ⟨sign, m, e, numerator, first, spelled⟩ :=
    exists_canonical (one_pos.trans_le least).ne'
  obtain ⟨other, n, i, denominator, second, heard⟩ :=
    exists_canonical (one_pos.trans_le (least.trans order)).ne'
  obtain rfl := positive_of_value (spelled ▸ least)
  obtain rfl := positive_of_value (heard ▸ least.trans order)
  rw [UnpackedFloat.Sign.apply, Int.cast_natCast] at spelled heard
  have bounds := normal_of_bounds numerator (spelled ▸ least) (spelled ▸ order.trans most)
  have limits := normal_of_bounds denominator (heard ▸ least.trans order) (heard ▸ most)
  rcases order.eq_or_lt with same | below
  · have one : x / y = 1 := by
      apply div_exact
      · rw [second]
        rfl
      · rw [value_one]
        exact one_ne_zero
      · exact (one_pos.trans_le (least.trans order)).ne'
      · rw [value_one, one_mul, same]
    rw [one]
    exact ⟨rfl, by decide +kernel, by decide +kernel⟩
  · have long := long_quotient bounds.1 limits.1
    have some : 0 < m * 2 ^ 53 / n := Nat.pos_of_ne_zero (ne_zero_of_log2 (by omega))
    have small := quotient_below_one some (by rwa [← spelled, ← heard])
    obtain ⟨q, j, positive, rounded, full, low, place⟩ :=
      roundWithAccuracy_below_one .positive long (by omega) small
        (UnpackedFloat.accuracyOfFraction (m * 2 ^ 53 % n) n)
    have stored : (x / y).toModel.unpack = .finite .positive q j positive := by
      rw [unpack_div, first, second]
      simp only [UnpackedFloat.div, divCore_full bounds.1 limits.1 (by omega : -1000 ≤ e - i)]
      change (pack (UnpackedFloat.roundWithAccuracy Format.binary64 .positive _ _ _)).unpack = _
      rw [rounded, unpack_pack_normal .positive q j positive full low (by omega)]
    refine ⟨?_, ?_, le_one_of_stored stored place⟩
    · rw [isFinite_eq, stored]
      rfl
    · rw [pos_iff, stored]
      rfl

end Double

end FactorSearch
